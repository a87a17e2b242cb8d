import DecimalMachine.Proofs.Machine.Changes

set_option autoImplicit false

/-! # Channels and senders

A journal holds one inbox for each subscriber. What is behind the inboxes are channels: a subscriber
receives from the one end, and the journal keeps the other ends, its senders. That a subscriber has
left shows only when something is sent to it, so the senders are sorted out while an event goes from
one of them to the next (`Broadcast.serve`). No channel is left out or served twice, because the
senders that are kept are different ones and every channel with a subscriber has one of them
(`Broadcast.Sound`). Therefore the channels hold at any time what the inboxes of the journal do
(`Broadcast.journal_run`). -/

namespace DecimalMachine

namespace Journal

/-! ## Actions -/

/-- What can be done to a journal. -/
inductive Action
  | recordCell (a : Nat)
  | recordRegisters
  | clear
  | subscribe
  /-- The subscriber of a number leaves. -/
  | leave (k : Nat)
  | notify (e : Event)
  deriving DecidableEq

/-- Whether a subscriber comes or leaves. -/
def Action.isSubscription : Action → Bool
  | .subscribe => true
  | .leave _ => true
  | _ => false

/-- The event that is sent, if one is. -/
def Action.event? : Action → Option Event
  | .notify e => some e
  | _ => none

def apply (j : Journal) : Action → Journal
  | .recordCell a => j.recordCell a
  | .recordRegisters => j.recordRegisters
  | .clear => j.clear
  | .subscribe => j.subscribe
  | .leave k => j.leave k
  | .notify e => j.notify e

/-- The journal after some actions. -/
def run (j : Journal) (actions : List Action) : Journal :=
  actions.foldl apply j

/-- The events that are sent in some actions, in their order. -/
def sent (actions : List Action) : List Event :=
  actions.filterMap Action.event?

/-! ## What is recorded -/

/-- One of some actions was carried out, and nothing that was recorded has been forgotten since. -/
def Remembers (actions : List Action) (x : Action) : Prop :=
  ∃ before after, actions = before ++ x :: after ∧ .clear ∉ after

theorem remembers_cons {x y : Action} {actions : List Action} :
    Remembers (y :: actions) x ↔ (y = x ∧ .clear ∉ actions) ∨ Remembers actions x := by
  constructor
  · rintro ⟨_ | ⟨z, before⟩, after, heq, hclear⟩
    · obtain ⟨rfl, rfl⟩ := List.cons.inj heq
      exact .inl ⟨rfl, hclear⟩
    · exact .inr ⟨before, after, (List.cons.inj heq).2, hclear⟩
  · rintro (⟨rfl, hclear⟩ | ⟨before, after, rfl, hclear⟩)
    · exact ⟨[], actions, rfl, hclear⟩
    · exact ⟨y :: before, after, rfl, hclear⟩

/-- What one action records and only `clear` forgets is recorded in the end if the action was
    carried out since the last `clear`, or if there was none and it was recorded at the start. -/
theorem run_eq_true_iff (recorded : Journal → Bool) {x : Action}
    (happly : ∀ j y, recorded (j.apply y) = (decide (y = x) || (decide (y ≠ .clear) && recorded j)))
    (j : Journal) (actions : List Action) :
    recorded (j.run actions) = true ↔
      Remembers actions x ∨ .clear ∉ actions ∧ recorded j = true := by
  induction actions generalizing j with
  | nil => simp [run, Remembers]
  | cons y actions ih =>
      have hrun : j.run (y :: actions) = (j.apply y).run actions := rfl
      rw [hrun, ih, happly, remembers_cons]
      by_cases hforgets : .clear ∈ actions
      · simp [hforgets]
      · by_cases hyx : y = x
        · simp [hforgets, hyx]
        · simp [hforgets, hyx, @eq_comm _ y .clear]

theorem hasChanged_run (j : Journal) (actions : List Action) (a : Nat) :
    (j.run actions).hasChanged a = true ↔
      Remembers actions (.recordCell a) ∨ .clear ∉ actions ∧ j.hasChanged a = true := by
  refine run_eq_true_iff (·.hasChanged a) (fun j y => ?_) j actions
  cases y with
  | recordCell b =>
      rw [apply, hasChanged_recordCell]
      simp [Bool.beq_eq_decide_eq]
  | clear =>
      rw [apply, hasChanged_clear]
      rfl
  | _ => exact (Bool.false_or _).symm

theorem registers_run (j : Journal) (actions : List Action) :
    (j.run actions).registers = true ↔
      Remembers actions .recordRegisters ∨ .clear ∉ actions ∧ j.registers = true := by
  refine run_eq_true_iff registers (fun j y => ?_) j actions
  cases y <;> simp [apply, recordRegisters, recordCell, clear, subscribe, leave, notify]

/-- Subscribers that come and leave make no difference to what is recorded. -/
theorem recorded_run_filter {j j' : Journal} (hchanged : j.changed = j'.changed)
    (hregisters : j.registers = j'.registers) (actions : List Action) :
    (j.run actions).changed = (j'.run (actions.filter (!·.isSubscription))).changed ∧
      (j.run actions).registers = (j'.run (actions.filter (!·.isSubscription))).registers := by
  induction actions generalizing j j' with
  | nil => exact ⟨hchanged, hregisters⟩
  | cons x actions ih =>
      cases x with
      | subscribe => exact ih hchanged hregisters
      | leave k => exact ih hchanged hregisters
      | notify e => exact ih hchanged hregisters
      | recordCell a => exact ih (congrArg (·.insert a) hchanged) hregisters
      | recordRegisters => exact ih hchanged rfl
      | clear => exact ih rfl rfl

end Journal

/-! ## Channels -/

/-- A channel: what its subscriber has got so far, and whether it is still there. -/
structure Channel where
  got : List Event := []
  isOpen : Bool := true
  deriving DecidableEq

namespace Channel

/-- The channel after an event was sent; nobody gets it if the subscriber has left. -/
def send (c : Channel) (e : Event) : Channel :=
  if c.isOpen then { c with got := c.got ++ [e] } else c

def close (c : Channel) : Channel :=
  { c with isOpen := false }

/-- What an action does to the channel of a number. -/
def after (c : Channel) (k : Nat) : Journal.Action → Channel
  | .leave l => if l = k then c.close else c
  | .notify e => c.send e
  | _ => c

/-- The inbox of the subscriber, if it is still there. -/
def inbox? (c : Channel) : Option (List Event) :=
  if c.isOpen then some c.got else none

theorem isOpen_send (c : Channel) (e : Event) : (c.send e).isOpen = c.isOpen := by
  unfold send
  split <;> rfl

theorem send_of_closed {c : Channel} (h : c.isOpen = false) (e : Event) : c.send e = c := by
  rw [send, h]
  rfl

/-- A channel that is closed stays as it is. -/
theorem after_of_closed {c : Channel} (h : c.isOpen = false) (k : Nat) (x : Journal.Action) :
    c.after k x = c := by
  cases x with
  | leave l =>
      simp only [after, close]
      split
      · rw [← h]
      · rfl
  | notify e => exact c.send_of_closed h e
  | _ => rfl

/-- No channel is opened again. -/
theorem isOpen_of_after {c : Channel} {k : Nat} {x : Journal.Action}
    (h : (c.after k x).isOpen = true) : c.isOpen = true := by
  refine Bool.of_not_eq_false fun hclosed => ?_
  rw [after_of_closed hclosed, hclosed] at h
  exact Bool.false_ne_true h

theorem inbox?_send (c : Channel) (e : Event) : (c.send e).inbox? = c.inbox?.map (· ++ [e]) := by
  cases h : c.isOpen with
  | true => simp [send, inbox?, h]
  | false => simp [send, inbox?, h]

end Channel

/-- The recorded changes, all channels that were ever made, numbered in the order of subscription,
    and the numbers of those that there still is a sender for. -/
structure Broadcast where
  changed : Std.TreeSet Nat := ∅
  registers : Bool := false
  channels : List Channel := []
  senders : List Nat := []

namespace Broadcast

/-- Sends an event with one sender after the other. A sender is kept if its subscriber is there. -/
def serve (e : Event) : List Nat → List Channel → List Nat × List Channel
  | [], channels => ([], channels)
  | k :: rest, channels =>
      let served := serve e rest (channels.modify k (·.send e))
      (if channels[k]?.any Channel.isOpen then k :: served.1 else served.1, served.2)

def apply (b : Broadcast) : Journal.Action → Broadcast
  | .recordCell a => { b with changed := b.changed.insert a }
  | .recordRegisters => { b with registers := true }
  | .clear => { b with changed := ∅, registers := false }
  | .subscribe =>
      { b with channels := b.channels ++ [{}], senders := b.senders ++ [b.channels.length] }
  | .leave k => { b with channels := b.channels.modify k Channel.close }
  | .notify e =>
      { b with senders := (serve e b.senders b.channels).1,
               channels := (serve e b.senders b.channels).2 }

/-- The channels and senders after some actions. -/
def run (b : Broadcast) (actions : List Journal.Action) : Broadcast :=
  actions.foldl apply b

/-- The journal: what is in the channels whose subscribers are there is in the inboxes. -/
def journal (b : Broadcast) : Journal :=
  { changed := b.changed, registers := b.registers, inboxes := b.channels.map Channel.inbox? }

/-! ## Serving -/

theorem getElem?_any_modify (channels : List Channel) (k l : Nat) (e : Event) :
    (channels.modify k (·.send e))[l]?.any Channel.isOpen = channels[l]?.any Channel.isOpen := by
  rw [List.getElem?_modify]
  split
  · cases channels[l]? with
    | none => rfl
    | some c => exact c.isOpen_send e
  · simp

/-- The senders that are kept are those whose subscribers are there, in their order. -/
theorem serve_fst (e : Event) (senders : List Nat) (channels : List Channel) :
    (serve e senders channels).1 =
      senders.filter fun k => channels[k]?.any Channel.isOpen := by
  induction senders generalizing channels with
  | nil => rfl
  | cons k rest ih =>
      rw [serve, List.filter_cons, ih]
      simp only [getElem?_any_modify]

theorem length_serve (e : Event) (senders : List Nat) (channels : List Channel) :
    (serve e senders channels).2.length = channels.length := by
  induction senders generalizing channels with
  | nil => rfl
  | cons k rest ih => exact (ih _).trans (List.length_modify ..)

/-- Every channel with a sender is served once, and the others are not. -/
theorem getElem?_serve {e : Event} {senders : List Nat} (h : senders.Nodup)
    (channels : List Channel) (l : Nat) :
    (serve e senders channels).2[l]? =
      channels[l]?.map fun c => if l ∈ senders then c.send e else c := by
  induction senders generalizing channels with
  | nil => simp [serve]
  | cons k rest ih =>
      obtain ⟨hk, hrest⟩ := List.nodup_cons.1 h
      rw [serve, ih hrest, List.getElem?_modify]
      by_cases hl : k = l
      · subst hl
        cases channels[k]? <;> simp [hk]
      · simp [hl, Ne.symm hl]

/-! ## Soundness -/

/-- The senders belong to different channels, in the order of subscription, and each channel whose
    subscriber is there has one. -/
structure Sound (b : Broadcast) : Prop where
  ascending : b.senders.Pairwise (· < ·)
  within : ∀ k ∈ b.senders, k < b.channels.length
  reaches : ∀ k, b.channels[k]?.any Channel.isOpen = true → k ∈ b.senders

variable {b : Broadcast}

/-- An event goes into every channel. -/
theorem channels_notify (h : b.Sound) (e : Event) :
    (b.apply (.notify e)).channels = b.channels.map (·.send e) := by
  refine List.ext_getElem? fun l => ?_
  rw [apply, getElem?_serve (h.ascending.imp Nat.ne_of_lt), List.getElem?_map]
  cases hl : b.channels[l]? with
  | none => rfl
  | some c =>
      have hreaches := h.reaches l
      rw [hl] at hreaches
      by_cases hmem : l ∈ b.senders
      · simp [hmem]
      · have hclosed : c.isOpen = false := by
          simpa using mt hreaches hmem
        simp [hmem, Channel.send_of_closed hclosed]

/-- What an action does to the channels that are there. -/
theorem getElem?_apply (h : b.Sound) {x : Journal.Action} (hx : x ≠ .subscribe) (k : Nat) :
    (b.apply x).channels[k]? = b.channels[k]?.map (·.after k x) := by
  cases x with
  | subscribe => exact absurd rfl hx
  | leave l =>
      rw [apply, List.getElem?_modify]
      rfl
  | notify e =>
      rw [channels_notify h, List.getElem?_map]
      rfl
  | _ => exact Option.map_id'.symm

theorem any_isOpen_of_apply (h : b.Sound) {x : Journal.Action} (hx : x ≠ .subscribe) {k : Nat}
    (hopen : (b.apply x).channels[k]?.any Channel.isOpen = true) :
    b.channels[k]?.any Channel.isOpen = true := by
  rw [getElem?_apply h hx] at hopen
  cases hk : b.channels[k]? with
  | none => exact absurd hopen (by simp [hk])
  | some c =>
      rw [hk] at hopen
      exact Channel.isOpen_of_after hopen

theorem Sound.apply (h : b.Sound) (x : Journal.Action) : (b.apply x).Sound := by
  cases x with
  | recordCell | recordRegisters | clear => exact ⟨h.ascending, h.within, h.reaches⟩
  | subscribe =>
      refine ⟨List.pairwise_append.2 ⟨h.ascending, List.pairwise_singleton _ _, ?_⟩, ?_, ?_⟩
      · intro k hk l hl
        rw [List.mem_singleton.1 hl]
        exact h.within k hk
      · intro k hk
        simp only [Broadcast.apply, List.length_append, List.length_singleton, List.mem_append,
          List.mem_singleton] at hk ⊢
        rcases hk with hk | rfl
        · exact Nat.lt_succ_of_lt (h.within k hk)
        · exact Nat.lt_succ_self _
      · intro k hopen
        simp only [Broadcast.apply] at hopen ⊢
        rcases Nat.lt_trichotomy k b.channels.length with hk | rfl | hk
        · rw [List.getElem?_append_left hk] at hopen
          exact List.mem_append_left _ (h.reaches k hopen)
        · exact List.mem_append_right _ (List.mem_singleton_self _)
        · rw [List.getElem?_eq_none (by simpa using Nat.succ_le_of_lt hk)] at hopen
          exact absurd hopen Bool.false_ne_true
  | leave l =>
      refine ⟨h.ascending, fun k hk => ?_, fun k hopen => ?_⟩
      · rw [Broadcast.apply, List.length_modify]
        exact h.within k hk
      · exact h.reaches k (any_isOpen_of_apply h (by simp) hopen)
  | notify e =>
      have hsenders : (b.apply (.notify e)).senders =
          b.senders.filter fun k => b.channels[k]?.any Channel.isOpen := serve_fst _ _ _
      refine ⟨?_, fun k hk => ?_, fun k hopen => ?_⟩
      · rw [hsenders]
        exact h.ascending.filter _
      · rw [hsenders] at hk
        rw [channels_notify h, List.length_map]
        exact h.within k (List.mem_filter.1 hk).1
      · have hopen' := any_isOpen_of_apply h (by simp) hopen
        rw [hsenders]
        exact List.mem_filter.2 ⟨h.reaches k hopen', hopen'⟩

theorem sound_empty : Sound {} :=
  ⟨List.Pairwise.nil, nofun, nofun⟩

theorem sound_run (actions : List Journal.Action) (h : b.Sound) : (b.run actions).Sound := by
  induction actions generalizing b with
  | nil => exact h
  | cons x actions ih => exact ih (h.apply x)

/-- What an action does to the channels, it does to the inboxes. -/
theorem journal_apply (h : b.Sound) (x : Journal.Action) :
    (b.apply x).journal = b.journal.apply x := by
  cases x with
  | recordCell | recordRegisters | clear => rfl
  | subscribe =>
      simp [journal, Broadcast.apply, Journal.apply, Journal.subscribe, Channel.inbox?]
  | leave k =>
      have hinboxes : (b.channels.modify k Channel.close).map Channel.inbox? =
          (b.channels.map Channel.inbox?).set k none := by
        refine List.ext_getElem? fun l => ?_
        rw [List.getElem?_map, List.getElem?_modify, List.getElem?_set, List.length_map,
          List.getElem?_map]
        by_cases hkl : k = l
        · subst hkl
          by_cases hlt : k < b.channels.length
          · simp [hlt, Channel.close, Channel.inbox?]
          · simp [hlt]
        · simp [hkl]
      simp only [journal, Broadcast.apply, Journal.apply, Journal.leave, hinboxes]
  | notify e =>
      have hinboxes : (b.apply (.notify e)).channels.map Channel.inbox? =
          (b.channels.map Channel.inbox?).map (·.map (· ++ [e])) := by
        rw [channels_notify h, List.map_map, List.map_map]
        exact List.map_congr_left fun c _ => c.inbox?_send e
      exact congrArg (Journal.mk b.changed b.registers) hinboxes

/-- The journal is at any time what its channels make it. -/
theorem journal_run (h : b.Sound) (actions : List Journal.Action) :
    (b.run actions).journal = b.journal.run actions := by
  induction actions generalizing b with
  | nil => rfl
  | cons x actions ih =>
      rw [run, List.foldl_cons, ← run, ih (h.apply x), journal_apply h x]
      rfl

/-! ## What a subscriber gets -/

theorem getElem?_apply_of_some (h : b.Sound) {k : Nat} {c : Channel}
    (hk : b.channels[k]? = some c) (x : Journal.Action) :
    (b.apply x).channels[k]? = some (c.after k x) := by
  by_cases hx : x = .subscribe
  · subst hx
    exact (List.getElem?_append_left (List.getElem?_eq_some_iff.1 hk).1).trans hk
  · rw [getElem?_apply h hx, hk]
    rfl

/-- Nothing comes through a channel whose subscriber has left. -/
theorem getElem?_run_of_closed (h : b.Sound) {k : Nat} {c : Channel} (hk : b.channels[k]? = some c)
    (hclosed : c.isOpen = false) (actions : List Journal.Action) :
    (b.run actions).channels[k]? = some c := by
  induction actions generalizing b with
  | nil => exact hk
  | cons x actions ih =>
      have hnext := getElem?_apply_of_some h hk x
      rw [Channel.after_of_closed hclosed] at hnext
      exact ih (h.apply x) hnext

/-- A subscriber that stays gets all that is sent. -/
theorem getElem?_run_of_stays (h : b.Sound) {k : Nat} {got : List Event}
    (hk : b.channels[k]? = some ⟨got, true⟩) {actions : List Journal.Action}
    (hstays : .leave k ∉ actions) :
    (b.run actions).channels[k]? = some ⟨got ++ Journal.sent actions, true⟩ := by
  induction actions generalizing b got with
  | nil => simpa [run, Journal.sent] using hk
  | cons x actions ih =>
      obtain ⟨hx, hrest⟩ := List.ne_and_not_mem_of_not_mem_cons hstays
      have hnext := getElem?_apply_of_some h hk x
      cases x with
      | leave l =>
          have hkl : l ≠ k := fun heq => hx (congrArg Journal.Action.leave heq.symm)
          simp only [Channel.after, if_neg hkl] at hnext
          exact ih (h.apply _) hnext hrest
      | notify e =>
          have hheard := ih (h.apply _) hnext hrest
          rwa [List.append_assoc] at hheard
      | _ => exact ih (h.apply _) hnext hrest

theorem length_run (b : Broadcast) (actions : List Journal.Action) :
    (b.run actions).channels.length = b.channels.length + actions.count .subscribe := by
  induction actions generalizing b with
  | nil => rfl
  | cons x actions ih =>
      have hrun : b.run (x :: actions) = (b.apply x).run actions := rfl
      rw [hrun, ih, List.count_cons]
      cases x with
      | subscribe =>
          rw [apply, List.length_append, List.length_singleton, beq_self_eq_true, if_pos rfl]
          omega
      | leave k =>
          rw [apply, List.length_modify]
          rfl
      | notify e =>
          rw [apply, length_serve]
          rfl
      | _ => rfl

theorem run_append (b : Broadcast) (before after : List Journal.Action) :
    b.run (before ++ after) = (b.run before).run after :=
  List.foldl_append

/-- A new subscriber is at the end of an empty channel, with the number of the subscribers before
    it. -/
theorem getElem?_run_subscribe (before : List Journal.Action) :
    (run {} (before ++ [.subscribe])).channels[before.count .subscribe]? = some ⟨[], true⟩ := by
  have hlength : (run {} before).channels.length = before.count .subscribe :=
    (length_run {} before).trans (Nat.zero_add _)
  rw [run_append, ← hlength]
  exact List.getElem?_concat_length

/-- What has come of some actions: each subscriber that stays has got the events since it came, one
    that has left has got those in between, and what is recorded are the changes since the journal
    was last cleared. -/
structure Delivers (b : Broadcast) (actions : List Journal.Action) : Prop where
  count : b.channels.length = actions.count .subscribe
  stays : ∀ before after, actions = before ++ .subscribe :: after →
    .leave (before.count .subscribe) ∉ after →
    b.channels[before.count .subscribe]? = some ⟨Journal.sent after, true⟩
  leaves : ∀ before between after,
    actions = before ++ .subscribe :: (between ++ .leave (before.count .subscribe) :: after) →
    .leave (before.count .subscribe) ∉ between →
    b.channels[before.count .subscribe]? = some ⟨Journal.sent between, false⟩
  ascending : b.journal.changes.Pairwise (· < ·)
  changes : ∀ a, a ∈ b.journal.changes ↔ Journal.Remembers actions (.recordCell a)
  registers : b.journal.registers = true ↔ Journal.Remembers actions .recordRegisters

theorem delivers_run (actions : List Journal.Action) : (run {} actions).Delivers actions := by
  have hsubscribe : ∀ before after, run {} (before ++ Journal.Action.subscribe :: after) =
      (run {} (before ++ [.subscribe])).run after := by
    intro before after
    rw [← run_append, List.append_assoc]
    rfl
  have hsound : ∀ actions, (run {} actions).Sound := fun actions => sound_run actions sound_empty
  refine ⟨?_, ?_, ?_, Journal.ascending_changes _, fun a => ?_, ?_⟩
  · exact (length_run {} actions).trans (Nat.zero_add _)
  · rintro before after rfl hstays
    rw [hsubscribe]
    exact getElem?_run_of_stays (hsound _) (getElem?_run_subscribe before) hstays
  · rintro before between after rfl hstays
    have hgot := getElem?_run_of_stays (hsound _) (getElem?_run_subscribe before) hstays
    rw [← hsubscribe] at hgot
    have hleft := getElem?_apply_of_some (hsound _) hgot (.leave (before.count .subscribe))
    rw [Channel.after, if_pos rfl] at hleft
    rw [hsubscribe, run_append, ← hsubscribe]
    exact getElem?_run_of_closed ((hsound _).apply _) hleft rfl after
  · rw [Journal.mem_changes, journal_run sound_empty, Journal.hasChanged_run]
    simp [journal, Journal.hasChanged]
  · rw [journal_run sound_empty, Journal.registers_run]
    simp [journal]

end Broadcast

end DecimalMachine
