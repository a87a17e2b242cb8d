import DecimalMachine.Proofs.Machine.Operation

set_option autoImplicit false

/-! # Sessions and their inboxes

No operation looks into the inboxes of the subscribers. Whatever they hold, it can do the same to
everything else, give the same answer and send the same events (`Machine.Performs.exists_sends`),
and so can a session (`Machine.PerformsAll.exists_sends`). Only a tripwire could break this, as it
is handed the whole machine, so runs are asked to have one that is blind. -/

namespace DecimalMachine

/-! ## Inboxes -/

/-- The inboxes after some events were sent. -/
def Inboxes.hear (boxes : Inboxes) (es : List Event) : Inboxes :=
  boxes.map (·.map (· ++ es))

theorem Inboxes.hear_nil (boxes : Inboxes) : boxes.hear [] = boxes := by
  simp [hear]

theorem Inboxes.getElem?_hear {boxes : Inboxes} {k : Nat} {inbox : List Event}
    (h : boxes[k]? = some (some inbox)) (es : List Event) :
    (boxes.hear es)[k]? = some (some (inbox ++ es)) := by
  rw [hear, List.getElem?_map, h]
  rfl

namespace Machine

/-- Events go into the inboxes and nowhere else. -/
theorem tell_eq (m : Machine) (es : List Event) :
    m.tell es = m.withInboxes (Inboxes.hear m.journal.inboxes es) := by
  have hjournal : m.journal.notifyAll es =
      { m.journal with inboxes := Inboxes.hear m.journal.inboxes es } := by
    have hchanged := Journal.changed_notifyAll m.journal es
    have hregisters := Journal.registers_notifyAll m.journal es
    have hinboxes := Journal.inboxes_notifyAll m.journal es
    generalize m.journal.notifyAll es = j at hchanged hregisters hinboxes ⊢
    obtain ⟨changed, registers, inboxes⟩ := j
    obtain rfl := hchanged
    obtain rfl := hregisters
    obtain rfl := hinboxes
    rfl
  rw [tell, hjournal]
  rfl

end Machine

/-! ## What operations send -/

/-- The inboxes after an operation in which some events were sent. -/
def Operation.deliver (op : Operation) (es : List Event) (boxes : Inboxes) : Inboxes :=
  match op with
  | .subscribe => boxes.hear es ++ [some []]
  | .leave i => (boxes.hear es).set i none
  | _ => boxes.hear es

namespace Machine

/-- Events that a machine sends in an operation on it. The operation can have the same answer,
    send the same and have the same effect otherwise, whatever the inboxes hold. -/
structure Sends (seeding : Seeding) (m : Machine) (op : Operation) (r : Machine)
    (es : List Event) : Prop where
  inboxes : r.journal.inboxes = op.deliver es m.journal.inboxes
  alike : ∀ boxes,
    Performs seeding (m.withInboxes boxes) op (r.withInboxes (op.deliver es boxes))

section Operations

variable (m : Machine) (boxes : Inboxes)

theorem tell_withInboxes (es : List Event) :
    (m.withInboxes boxes).tell es = (m.tell es).withInboxes (boxes.hear es) := by
  rw [tell_eq, tell_eq]
  rfl

theorem execute_withInboxes :
    (m.withInboxes boxes).execute = (m.execute.1.withInboxes boxes, m.execute.2) := by
  refine Executes.execute_eq ?_
  have h := m.executes_execute
  generalize m.execute.1 = r, m.execute.2 = x at h
  cases h with
  | halted hs => exact .halted hs
  | faulted hs => exact .faulted hs
  | fault hactive he => exact .fault hactive he
  | halt hactive he => exact .halt hactive he
  | @run e hactive he =>
      have hrun : (m.withInboxes boxes).Executes _ _ := .run hactive he
      have hperform : (m.withInboxes boxes).perform e = (m.perform e).withInboxes boxes := by
        unfold perform
        cases h : (m.core.apply e).2 with
        | none => simp only [withInboxes, h]; rfl
        | some a => simp only [withInboxes, h]; rfl
      rwa [hperform] at hrun

theorem publish_withInboxes :
    (m.withInboxes boxes).publish =
      m.publish.withInboxes (boxes.hear (m.journal.recorded m.core.acu m.core.pc)) :=
  tell_withInboxes m boxes _

theorem step_withInboxes :
    (m.withInboxes boxes).step =
      (m.step.1.withInboxes
        (boxes.hear
          (let r := ({ m with journal := m.journal.clear } : Machine).execute.1
           r.journal.recorded r.core.acu r.core.pc)), m.step.2) := by
  have hclear : ({ m.withInboxes boxes with journal := (m.withInboxes boxes).journal.clear } :
      Machine) = ({ m with journal := m.journal.clear } : Machine).withInboxes boxes := rfl
  unfold step
  rw [hclear, execute_withInboxes]
  generalize ({ m with journal := m.journal.clear } : Machine).execute = e
  obtain ⟨r, x⟩ := e
  cases x <;> exact congrArg (·, _) (publish_withInboxes r boxes)

theorem finish_withInboxes (reason : Except Fault Pause) :
    (m.withInboxes boxes).finish reason =
      ((m.finish reason).1.withInboxes
        (boxes.hear (m.journal.recorded m.core.acu m.core.pc)), (m.finish reason).2) := by
  have hstopped : ({ m.withInboxes boxes with running := false } : Machine) =
      ({ m with running := false } : Machine).withInboxes boxes := rfl
  unfold finish
  rw [hstopped, publish_withInboxes]
  cases reason <;> rfl

theorem addBreakpoint_withInboxes (b : Breakpoint) :
    (m.withInboxes boxes).addBreakpoint b =
      ((m.addBreakpoint b).1.withInboxes boxes, (m.addBreakpoint b).2) := by
  by_cases h : b ∈ m.breakpoints
  · rw [addBreakpoint, addBreakpoint, if_pos h]
    exact if_pos h
  · rw [addBreakpoint, addBreakpoint, if_neg h]
    exact if_neg h

theorem removeBreakpoint_withInboxes (b : Breakpoint) :
    (m.withInboxes boxes).removeBreakpoint b =
      ((m.removeBreakpoint b).1.withInboxes boxes, (m.removeBreakpoint b).2) := by
  by_cases h : b ∈ m.breakpoints
  · rw [removeBreakpoint, removeBreakpoint, if_pos h]
    exact if_pos h
  · rw [removeBreakpoint, removeBreakpoint, if_neg h]
    exact if_neg h

end Operations

section Runs

variable {σ : Type} {trip : Tripwire σ} {m m' : Machine}

/-- The course with other inboxes. -/
def Course.withInboxes (c : Course σ) (boxes : Inboxes) : Course σ :=
  { c with machine := c.machine.withInboxes boxes }

/-- No move looks into the inboxes. -/
theorem Moves.withInboxes (hblind : trip.IsBlind) {c d : Course σ} (h : Moves trip c d)
    (boxes : Inboxes) : Moves trip (c.withInboxes boxes) (d.withInboxes boxes) := by
  cases h with
  | request h => exact .request h
  | stopped hrunning => exact .stopped hrunning
  | enter hrunning => exact .enter hrunning
  | @ask s m n =>
      have hask : Moves trip ⟨.asking, s, m.withInboxes boxes, n⟩ _ := .ask
      have hstop : (if (trip s m).1.stop then (m.withInboxes boxes).stop
          else m.withInboxes boxes) =
          (if (trip s m).1.stop then m.stop else m).withInboxes boxes := by
        split <;> rfl
      rwa [hblind, hstop] at hask
  | @execute s m n =>
      have hexecute : Moves trip ⟨.executing, s, m.withInboxes boxes, n⟩ _ := .execute
      rwa [execute_withInboxes] at hexecute
  | check => exact .check

/-- What a run sends, it sends at its end. -/
theorem Runs.exists_sent (hblind : trip.IsBlind) {s s' : σ} {n : Nat}
    {answer : Except Fault Unit} (h : Runs trip s m s' n m' answer) :
    ∃ es, m'.journal.inboxes = Inboxes.hear m.journal.inboxes es ∧
      ∀ boxes,
        Runs trip s (m.withInboxes boxes) s' n (m'.withInboxes (boxes.hear es)) answer := by
  obtain ⟨r, reason, hmoves, hfinish⟩ := h
  have hinboxes : r.journal.inboxes = m.journal.inboxes := (Moves.frame_all hmoves).2
  have hother : ∀ boxes, (r.withInboxes boxes).finish reason =
      (m'.withInboxes (boxes.hear (r.journal.recorded r.core.acu r.core.pc)), answer) := by
    intro boxes
    rw [finish_withInboxes, hfinish]
  refine ⟨r.journal.recorded r.core.acu r.core.pc, ?_, ?_⟩
  · have hown := (hother r.journal.inboxes).symm.trans hfinish
    rw [← hinboxes]
    exact congrArg (·.1.journal.inboxes) hown.symm
  · intro boxes
    refine ⟨r.withInboxes boxes, reason, ?_, hother boxes⟩
    exact hmoves.lift (Course.withInboxes · boxes) fun _ _ hmove => hmove.withInboxes hblind boxes

end Runs

variable {seeding : Seeding} {m r x : Machine} {op : Operation} {es : List Event}

theorem sends_nil (hdeliver : ∀ boxes, op.deliver [] boxes = Inboxes.hear boxes [])
    (hinboxes : r.journal.inboxes = m.journal.inboxes)
    (hperforms : ∀ boxes, Performs seeding (m.withInboxes boxes) op (r.withInboxes boxes)) :
    Sends seeding m op r [] := by
  constructor
  · rw [hdeliver, Inboxes.hear_nil]
    exact hinboxes
  · intro boxes
    rw [hdeliver, Inboxes.hear_nil]
    exact hperforms boxes

theorem sends_tell (hdeliver : ∀ boxes, op.deliver es boxes = Inboxes.hear boxes es)
    (hinboxes : x.journal.inboxes = m.journal.inboxes)
    (hperforms : ∀ boxes,
      Performs seeding (m.withInboxes boxes) op ((x.withInboxes boxes).tell es)) :
    Sends seeding m op (x.tell es) es := by
  constructor
  · rw [hdeliver, ← hinboxes, tell_eq]
    rfl
  · intro boxes
    rw [hdeliver, ← tell_withInboxes]
    exact hperforms boxes

/-- What an operation does to a machine, it can do whatever the inboxes hold. -/
theorem Performs.exists_sends (h : Performs seeding m op r) (hblind : op.IsBlind) :
    ∃ es, Sends seeding m op r es := by
  cases h with
  | load hload =>
      obtain ⟨hroom, rfl⟩ := load_eq_ok_iff.1 hload
      rw [Machine.rewind, tell_append]
      refine ⟨_, sends_tell (fun _ => rfl) rfl fun boxes => ?_⟩
      rw [← tell_append]
      exact .load (load_eq_ok_iff.2 ⟨hroom, rfl⟩)
  | loadRefused hload =>
      have hrefused := load_eq_error_iff.1 hload
      exact ⟨_, sends_nil (fun _ => rfl) rfl fun _ => .loadRefused (load_eq_error_iff.2 hrefused)⟩
  | setMemory hset =>
      obtain ⟨hroom, rfl⟩ := setMemory_eq_ok_iff.1 hset
      exact ⟨_, sends_tell (fun _ => rfl) rfl fun _ =>
        .setMemory (setMemory_eq_ok_iff.2 ⟨hroom, rfl⟩)⟩
  | setMemoryRefused hset =>
      have hrefused := setMemory_eq_error_iff.1 hset
      exact ⟨_, sends_nil (fun _ => rfl) rfl fun _ =>
        .setMemoryRefused (setMemory_eq_error_iff.2 hrefused)⟩
  | resize capacity unseeded =>
      exact ⟨_, sends_tell (fun _ => rfl) rfl fun _ => .resize _ capacity unseeded⟩
  | reset unseeded => exact ⟨_, sends_tell (fun _ => rfl) rfl fun _ => .reset _ unseeded⟩
  | rewind => exact ⟨_, sends_tell (fun _ => rfl) rfl fun _ => .rewind _⟩
  | clearRegisters => exact ⟨_, sends_tell (fun _ => rfl) rfl fun _ => .clearRegisters _⟩
  | startAtLine hline =>
      obtain ⟨ha, rfl⟩ := startAtLine?_eq_some_iff.1 hline
      exact ⟨_, sends_tell (fun _ => rfl) rfl fun _ =>
        .startAtLine (startAtLine?_eq_some_iff.2 ⟨ha, rfl⟩)⟩
  | startAtLineRefused hline =>
      have hrefused := Option.map_eq_none_iff.1 hline
      exact ⟨_, sends_nil (fun _ => rfl) rfl fun _ =>
        .startAtLineRefused (Option.map_eq_none_iff.2 hrefused)⟩
  | step =>
      have hstep := step_withInboxes m
      refine ⟨_, congrArg (·.1.journal.inboxes) (hstep m.journal.inboxes), ?_⟩
      intro boxes
      have hperforms : Performs seeding (m.withInboxes boxes) _ _ := .step _
      rwa [hstep] at hperforms
  | run hruns =>
      obtain ⟨es, hinboxes, halike⟩ := hruns.exists_sent hblind
      exact ⟨es, hinboxes, fun boxes => .run (halike boxes)⟩
  | runAtMost hruns =>
      obtain ⟨es, hinboxes, halike⟩ := hruns.exists_sent fun _ _ _ => rfl
      exact ⟨es, hinboxes, fun boxes => .runAtMost (halike boxes)⟩
  | stopHandle => exact ⟨_, sends_nil (fun _ => rfl) rfl fun _ => .stopHandle _⟩
  | stop h => exact ⟨_, sends_nil (fun _ => rfl) rfl fun _ => .stop _ h⟩
  | edit core => exact ⟨_, sends_nil (fun _ => rfl) rfl fun _ => .edit _ core⟩
  | recount executed => exact ⟨_, sends_nil (fun _ => rfl) rfl fun _ => .recount _ executed⟩
  | setFlags flags => exact ⟨_, sends_nil (fun _ => rfl) rfl fun _ => .setFlags _ flags⟩
  | record changed registers =>
      exact ⟨_, sends_nil (fun _ => rfl) rfl fun _ => .record _ changed registers⟩
  | notify e => exact ⟨_, sends_tell (fun _ => rfl) rfl fun _ => .notify _ e⟩
  | addBreakpoint b =>
      have hadd := addBreakpoint_withInboxes m
      refine ⟨[], sends_nil (fun _ => rfl) (congrArg (·.1.journal.inboxes) (hadd _ b)) ?_⟩
      intro boxes
      have hperforms : Performs seeding (m.withInboxes boxes) _ _ := .addBreakpoint _ b
      rwa [hadd] at hperforms
  | removeBreakpoint b =>
      have hremove := removeBreakpoint_withInboxes m
      refine ⟨[], sends_nil (fun _ => rfl) (congrArg (·.1.journal.inboxes) (hremove _ b)) ?_⟩
      intro boxes
      have hperforms : Performs seeding (m.withInboxes boxes) _ _ := .removeBreakpoint _ b
      rwa [hremove] at hperforms
  | clearBreakpoints => exact ⟨_, sends_nil (fun _ => rfl) rfl fun _ => .clearBreakpoints _⟩
  | subscribe =>
      refine ⟨[], ?_, ?_⟩
      · rw [Operation.deliver, Inboxes.hear_nil]
        rfl
      · intro boxes
        rw [Operation.deliver, Inboxes.hear_nil]
        exact .subscribe _
  | leave i =>
      refine ⟨[], ?_, ?_⟩
      · rw [Operation.deliver, Inboxes.hear_nil]
        rfl
      · intro boxes
        rw [Operation.deliver, Inboxes.hear_nil]
        exact .leave _ i

end Machine

/-! ## What sessions send -/

/-- The inboxes after a session, given what was sent in each of its operations. -/
def Inboxes.deliverAll (boxes : Inboxes) : List Operation → List (List Event) → Inboxes
  | op :: ops, es :: sent => Inboxes.deliverAll (op.deliver es boxes) ops sent
  | _, _ => boxes

/-- An inbox takes what is sent, unless its subscriber leaves. -/
theorem Operation.getElem?_deliver {op : Operation} {boxes : Inboxes} {k : Nat}
    {inbox : List Event} (hk : boxes[k]? = some (some inbox)) (hstays : op ≠ .leave k)
    (es : List Event) : (op.deliver es boxes)[k]? = some (some (inbox ++ es)) := by
  have hheard := Inboxes.getElem?_hear hk es
  cases op with
  | subscribe =>
      rw [deliver, List.getElem?_append_left (List.getElem?_eq_some_iff.1 hheard).1]
      exact hheard
  | leave i =>
      have hne : i ≠ k := fun h => hstays (congrArg Operation.leave h)
      rw [deliver, List.getElem?_set_ne hne]
      exact hheard
  | _ => exact hheard

/-- A subscriber that stays has got everything that was sent, in its order. -/
theorem Inboxes.getElem?_deliverAll {ops : List Operation} {sent : List (List Event)}
    (hlength : sent.length = ops.length) {boxes : Inboxes} {k : Nat} {inbox : List Event}
    (hk : boxes[k]? = some (some inbox)) (hstays : Operation.leave k ∉ ops) :
    (boxes.deliverAll ops sent)[k]? = some (some (inbox ++ sent.flatten)) := by
  induction ops generalizing sent boxes inbox with
  | nil =>
      obtain rfl := List.eq_nil_of_length_eq_zero hlength
      simpa [deliverAll] using hk
  | cons op ops ih =>
      obtain ⟨es, sent, rfl⟩ := List.exists_cons_of_length_eq_add_one hlength
      obtain ⟨hfirst, hrest⟩ := List.ne_and_not_mem_of_not_mem_cons hstays
      rw [deliverAll, List.flatten_cons, ← List.append_assoc]
      exact ih (Nat.succ.inj hlength) (op.getElem?_deliver hk hfirst.symm es) hrest

namespace Machine

variable {seeding : Seeding} {m r : Machine} {ops : List Operation}

/-- Whatever the inboxes hold, a session can go the same way and send the same. -/
theorem PerformsAll.exists_sends (h : PerformsAll seeding m ops r)
    (hblind : ∀ op ∈ ops, op.IsBlind) :
    ∃ sent : List (List Event), sent.length = ops.length ∧
      r.journal.inboxes = Inboxes.deliverAll m.journal.inboxes ops sent ∧
      ∀ boxes : Inboxes, PerformsAll seeding (m.withInboxes boxes) ops
        (r.withInboxes (boxes.deliverAll ops sent)) := by
  induction h with
  | nil m => exact ⟨[], rfl, rfl, fun boxes => .nil _⟩
  | cons hfirst _ ih =>
      obtain ⟨es, hinboxes, halike⟩ := hfirst.exists_sends (hblind _ List.mem_cons_self)
      obtain ⟨sent, hlength, hrest, hall⟩ := ih fun op hop => hblind op (List.mem_cons_of_mem _ hop)
      rw [hinboxes] at hrest
      exact ⟨es :: sent, congrArg Nat.succ hlength, hrest, fun boxes =>
        .cons (halike boxes) (hall _)⟩

end Machine

end DecimalMachine
