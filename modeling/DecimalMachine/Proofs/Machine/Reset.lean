import DecimalMachine.Proofs.Machine.Session
import DecimalMachine.Proofs.Machine.Stopping

set_option autoImplicit false

/-! # Resets

A reset leaves nothing of what was done to a machine before: it is a new machine with the same
flags and breakpoints, whose subscribers have been told so (`Machine.reset_eq`). Of its flag alone
it takes over the one that its handles share, as every other operation does
(`Machine.PerformsAll.switch_eq`), so that they still reach it. Subscribers do not count in a
session, so whatever is done to the machine afterwards can be done to a new one, with the same
answers and the same events, and the other way round (`Machine.reset_erases_history`). -/

namespace DecimalMachine.Machine

/-- A new machine with the flags, the breakpoints and the handles of another one. -/
def renewed (m : Machine) (r : Randomness) : Machine :=
  { new r m.switch m.flags with breakpoints := m.breakpoints }

/-- What a reset tells the subscribers. -/
def resetNews (m : Machine) : List Event :=
  [.memoryChanged (List.range m.flags.capacity), .registersChanged 0 0, .labelsChanged]

variable {seeding : Seeding} {m r : Machine} {ops : List Operation}

theorem IsNew.running_eq_false {flags : Flags} (h : IsNew seeding flags m) :
    m.running = false := by
  cases h
  rfl

/-- Between runs, all that a reset leaves of the past is what the subscribers have been told. -/
theorem reset_eq (hrunning : m.running = false) (r : Randomness) :
    m.reset r = (m.renewed r).withInboxes (Inboxes.hear m.journal.inboxes m.resetNews) := by
  unfold reset
  rw [tell_eq]
  dsimp only
  rw [size_new, hrunning]
  rfl

/-- If the flags determine the values of memory, it does not matter what comes without a seed. -/
theorem renewed_congr (hfill : m.flags.fill ≠ .unseeded) {r r' : Randomness}
    (hseeded : r.seeded = r'.seeded) : m.renewed r = m.renewed r' := by
  rw [renewed, new, Fill.supply_congr hfill hseeded]
  rfl

theorem Performs.eq_renewed (h : Performs seeding m .reset r) (hrunning : m.running = false)
    (hfill : m.flags.fill ≠ .unseeded) (unseeded : Nat → Cell) :
    r = (m.renewed ⟨seeding, unseeded⟩).withInboxes
      (Inboxes.hear m.journal.inboxes m.resetNews) := by
  cases h with
  | reset other =>
      have hsame : m.renewed ⟨seeding, other⟩ = m.renewed ⟨seeding, unseeded⟩ :=
        renewed_congr hfill rfl
      rw [reset_eq hrunning, hsame]

theorem Performs.size_of_reset (h : Performs seeding m .reset r) :
    r.core.memory.size = m.flags.capacity ∧ r.flags = m.flags := by
  cases h with
  | reset unseeded => exact ⟨size_new ⟨seeding, unseeded⟩ (m.switch + 1) m.flags, rfl⟩

theorem Performs.capacity_of_resize {capacity : Nat} (h : Performs seeding m (.resize capacity) r) :
    r.flags.capacity = capacity := by
  cases h
  rfl

/-- A handle that was taken in a session is one of the machine at its end. -/
theorem PerformsAll.eq_stopHandle (h : PerformsAll seeding m ops r) {handle : StopHandle}
    (hmem : .stopHandle handle ∈ ops) : handle = r.stopHandle := by
  induction h with
  | nil => exact absurd hmem List.not_mem_nil
  | cons hfirst hrest ih =>
      rcases List.mem_cons.1 hmem with heq | hmem
      · subst heq
        cases hfirst
        exact congrArg StopHandle.mk hrest.switch_eq.symm
      · exact ih hmem

/-- A reset erases history. Whatever was done to a machine under whatever flags, if the flags that
    it holds now determine the values of memory, a reset makes it a new machine with these flags, of
    which only breakpoints, handles and subscribers are as they were. What is done afterwards can be
    done to the new machine without a past, whoever has subscribed there: the answers are the same,
    the machines at the end differ in their inboxes at most, and each operation sends the same
    events. Every subscriber from before that stays gets these events. The new machine can do
    nothing else than the machine after the reset. That one, and whatever becomes of it, obeys every
    handle that was taken before the reset. After memory was resized, resets keep its size until the
    flags are set. -/
theorem reset_erases_history {flags : Flags} {first m r : Machine} {past : List Operation}
    (hnew : IsNew seeding flags first) (hpast : PerformsAll seeding first past m)
    (hfill : m.flags.fill ≠ .unseeded) (hreset : Performs seeding m .reset r)
    (unseeded : Nat → Cell) :
    r = (m.renewed ⟨seeding, unseeded⟩).withInboxes
      (Inboxes.hear m.journal.inboxes m.resetNews) ∧
    (∀ later r', PerformsAll seeding r later r' → (∀ op ∈ later, op.IsBlind) →
      ∃ sent : List (List Event), sent.length = later.length ∧
        (∀ boxes : Inboxes,
          PerformsAll seeding ((m.renewed ⟨seeding, unseeded⟩).withInboxes boxes) later
            (r'.withInboxes (boxes.deliverAll later sent))) ∧
        r'.journal.inboxes = Inboxes.deliverAll r.journal.inboxes later sent ∧
        ∀ (k : Nat) (inbox : List Event), m.journal.inboxes[k]? = some (some inbox) →
          Operation.leave k ∉ later →
          r'.journal.inboxes[k]? = some (some (inbox ++ m.resetNews ++ sent.flatten))) ∧
    (∀ later f, PerformsAll seeding (m.renewed ⟨seeding, unseeded⟩) later f →
      (∀ op ∈ later, op.IsBlind) → ∃ boxes, PerformsAll seeding r later (f.withInboxes boxes)) ∧
    (∀ handle, .stopHandle handle ∈ past → ∀ later r', PerformsAll seeding r later r' →
      r'.Obeys handle) ∧
    (∀ capacity between m₀ m₁ m₂ r', Performs seeding m₀ (.resize capacity) m₁ →
      PerformsAll seeding m₁ between m₂ → (∀ op ∈ between, op.setsFlags = false) →
      Performs seeding m₂ .reset r' →
      r'.core.memory.size = capacity ∧ r'.flags.capacity = capacity) := by
  have hr := hreset.eq_renewed (hpast.running_eq_false hnew.running_eq_false) hfill unseeded
  refine ⟨hr, ?_, ?_, ?_, ?_⟩
  · intro later r' hlater hblind
    obtain ⟨sent, hlength, hinboxes, halike⟩ := hlater.exists_sends hblind
    refine ⟨sent, hlength, ?_, hinboxes, ?_⟩
    · rw [hr] at halike
      exact halike
    · intro k inbox hk hstays
      rw [hinboxes, hr]
      exact Inboxes.getElem?_deliverAll hlength (Inboxes.getElem?_hear hk _) hstays
  · intro later f hlater hblind
    obtain ⟨sent, -, -, halike⟩ := hlater.exists_sends hblind
    rw [hr]
    exact ⟨_, halike _⟩
  · intro handle hmem later r' hlater
    -- the handle belongs to the machine before the reset, and no operation changes the flag
    obtain rfl := hpast.eq_stopHandle hmem
    have hswitch : r'.switch = m.switch := hlater.switch_eq.trans hreset.keeps.switch
    exact obeys_iff.2 (congrArg StopHandle.mk hswitch.symm)
  · intro capacity between m₀ m₁ m₂ r' hresize hbetween hflags hreset'
    obtain ⟨hsize, hkept⟩ := hreset'.size_of_reset
    rw [hkept, hsize, hbetween.flags_eq hflags]
    exact ⟨hresize.capacity_of_resize, hresize.capacity_of_resize⟩

/-- A reset in the middle of a program, with a handle and a subscriber from before. -/
theorem reset_erases_history_of_step :
    ∃ first past m, IsNew (fun _ _ => 0) { capacity := 1, fill := .known 9115 } first ∧
      PerformsAll (fun _ _ => 0) first past m ∧ m.core.acu = 5 ∧ m.status = .running ∧
      m.journal.inboxes = [some [.registersChanged 5 1]] ∧
      m.reset default = (m.renewed default).withInboxes [some ([.registersChanged 5 1] ++
        [.memoryChanged [0], .registersChanged 0 0, .labelsChanged])] ∧
      (m.reset default).Obeys ⟨3⟩ := by
  have hnew : IsNew (fun _ _ => 0) _ (new default 3 { capacity := 1, fill := .known 9115 }) :=
    .mk (fun _ => 0) 3
  have hpast : PerformsAll (fun _ _ => 0) (new default 3 { capacity := 1, fill := .known 9115 })
      [.stopHandle ⟨3⟩, .subscribe, .step _ _] _ :=
    .cons (.stopHandle _) (.cons (.subscribe _) (.cons (.step _) (.nil _)))
  obtain ⟨hr, -, -, hobeys, -⟩ := reset_erases_history hnew hpast (by decide +kernel)
    (.reset _ fun _ => 0) fun _ => 0
  have hinboxes :
      (new default 3 { capacity := 1, fill := .known 9115 }).subscribe.step.1.journal.inboxes =
        [some [.registersChanged 5 1]] := by
    decide +kernel
  rw [hinboxes] at hr
  exact ⟨_, _, _, hnew, hpast, by decide +kernel, by decide +kernel, hinboxes, hr,
    hobeys _ List.mem_cons_self _ _ (.nil _)⟩

end DecimalMachine.Machine
