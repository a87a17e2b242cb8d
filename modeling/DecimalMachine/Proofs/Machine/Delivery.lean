import DecimalMachine.Proofs.Machine.Broadcast
import DecimalMachine.Proofs.Machine.Session

set_option autoImplicit false

/-! # Subscribers that come and leave

Subscribers can come and leave between any two operations on a machine, and nobody else notices. A
session with other subscribers has the same operations in between, with the same answers, and what
they send is the same (`Machine.PerformsAll.exists_sent`). So a subscriber gets what is sent from
its subscription on, whoever else is there (`Inboxes.heard_deliverAll`). -/

namespace DecimalMachine

/-! ## Subscriptions -/

namespace Operation

/-- Whether a subscriber comes. -/
def subscribes : Operation → Bool
  | .subscribe => true
  | _ => false

/-- Whether a subscriber comes or leaves. -/
def isSubscription : Operation → Bool
  | .subscribe => true
  | .leave _ => true
  | _ => false

/-- What is sent in each operation of a session, given what is sent in each of those in which no
    subscriber comes or leaves. -/
def spread : List Operation → List (List Event) → List (List Event)
  | [], _ => []
  | op :: ops, sent =>
      if op.isSubscription then [] :: spread ops sent else sent.headD [] :: spread ops sent.tail

section Spread

variable {op : Operation} {ops : List Operation}

theorem spread_cons_of_isSubscription (h : op.isSubscription = true) (sent : List (List Event)) :
    spread (op :: ops) sent = [] :: spread ops sent :=
  if_pos h

theorem spread_cons (h : op.isSubscription = false) (sent : List (List Event)) :
    spread (op :: ops) sent = sent.headD [] :: spread ops sent.tail :=
  if_neg (Bool.eq_false_iff.1 h)

theorem length_spread (ops : List Operation) (sent : List (List Event)) :
    (spread ops sent).length = ops.length := by
  induction ops generalizing sent with
  | nil => rfl
  | cons op ops ih =>
      rw [spread]
      split <;> exact congrArg Nat.succ (ih _)

theorem flatten_spread {sent : List (List Event)}
    (h : sent.length = ops.countP (!·.isSubscription)) :
    (spread ops sent).flatten = sent.flatten := by
  induction ops generalizing sent with
  | nil =>
      obtain rfl := List.eq_nil_of_length_eq_zero h
      rfl
  | cons op ops ih =>
      cases hop : op.isSubscription with
      | true =>
          simp only [List.countP_cons, hop] at h
          rw [spread_cons_of_isSubscription hop]
          exact ih h
      | false =>
          simp only [List.countP_cons, hop] at h
          obtain ⟨es, sent, rfl⟩ := List.exists_cons_of_length_eq_add_one h
          rw [spread_cons hop, List.flatten_cons, List.flatten_cons]
          exact congrArg (es ++ ·) (ih (Nat.succ.inj h))

theorem spread_append (before after : List Operation) (sent : List (List Event)) :
    spread (before ++ after) sent =
      spread before sent ++ spread after (sent.drop (before.countP (!·.isSubscription))) := by
  induction before generalizing sent with
  | nil => rfl
  | cons op before ih =>
      cases hop : op.isSubscription with
      | true =>
          rw [List.cons_append, spread_cons_of_isSubscription hop,
            spread_cons_of_isSubscription hop, ih, List.countP_cons_of_neg (by simp [hop])]
          rfl
      | false =>
          rw [List.cons_append, spread_cons hop, spread_cons hop, ih, List.drop_tail,
            List.countP_cons_of_pos (by simp [hop])]
          rfl

end Spread

theorem length_deliver (op : Operation) (es : List Event) (boxes : Inboxes) :
    (op.deliver es boxes).length = boxes.length + if op.subscribes then 1 else 0 := by
  cases op <;> simp [deliver, subscribes, Inboxes.hear]

end Operation

namespace Inboxes

theorem deliverAll_append {before : List Operation} {sent : List (List Event)}
    (h : sent.length = before.length) (boxes : Inboxes) (after : List Operation)
    (rest : List (List Event)) :
    boxes.deliverAll (before ++ after) (sent ++ rest) =
      (boxes.deliverAll before sent).deliverAll after rest := by
  induction before generalizing boxes sent with
  | nil =>
      obtain rfl := List.eq_nil_of_length_eq_zero h
      rfl
  | cons op before ih =>
      obtain ⟨es, sent, rfl⟩ := List.exists_cons_of_length_eq_add_one h
      exact ih (Nat.succ.inj h) _

theorem length_deliverAll {ops : List Operation} {sent : List (List Event)}
    (h : sent.length = ops.length) (boxes : Inboxes) :
    (boxes.deliverAll ops sent).length = boxes.length + ops.countP Operation.subscribes := by
  induction ops generalizing boxes sent with
  | nil =>
      obtain rfl := List.eq_nil_of_length_eq_zero h
      rfl
  | cons op ops ih =>
      obtain ⟨es, sent, rfl⟩ := List.exists_cons_of_length_eq_add_one h
      rw [deliverAll, ih (Nat.succ.inj h), Operation.length_deliver, List.countP_cons]
      omega

/-- What the subscribers have in their inboxes after a session, given what was sent in each of its
    operations in which no subscriber comes or leaves. One that was there before it and stays has
    got all of that, and one that comes and stays has got what was sent after that. -/
structure Heard (old : Inboxes) (ops : List Operation) (sent : List (List Event))
    (boxes : Inboxes) : Prop where
  there : ∀ (k : Nat) inbox, old[k]? = some (some inbox) → Operation.leave k ∉ ops →
    boxes[k]? = some (some (inbox ++ sent.flatten))
  comes : ∀ before after, ops = before ++ .subscribe :: after →
    Operation.leave (old.length + before.countP Operation.subscribes) ∉ after →
    boxes[old.length + before.countP Operation.subscribes]? =
      some (some (sent.drop (before.countP (!·.isSubscription))).flatten)

theorem heard_deliverAll {ops : List Operation} {sent : List (List Event)}
    (h : sent.length = ops.countP (!·.isSubscription)) (old : Inboxes) :
    Heard old ops sent (old.deliverAll ops (Operation.spread ops sent)) := by
  constructor
  · intro k inbox hk hstays
    rw [← Operation.flatten_spread h]
    exact getElem?_deliverAll (Operation.length_spread _ _) hk hstays
  · rintro before after rfl hstays
    have hbefore := Operation.length_spread before sent
    have hlength := length_deliverAll hbefore old
    have hrest : (sent.drop (before.countP (!·.isSubscription))).length =
        after.countP (!·.isSubscription) := by
      simp [h, Operation.isSubscription]
    rw [Operation.spread_append, deliverAll_append hbefore,
      Operation.spread_cons_of_isSubscription rfl, ← Operation.flatten_spread hrest, deliverAll,
      Operation.deliver, hear_nil]
    rw [← hlength] at hstays ⊢
    exact getElem?_deliverAll (Operation.length_spread _ _) List.getElem?_concat_length hstays

end Inboxes

namespace Machine

variable {seeding : Seeding} {m m' r : Machine} {op : Operation} {ops : List Operation}

/-- To come or leave is possible at any time, and changes the inboxes and nothing else. -/
theorem performs_of_isSubscription (h : op.isSubscription = true) (m : Machine) (boxes : Inboxes) :
    Performs seeding (m.withInboxes boxes) op (m.withInboxes (op.deliver [] boxes)) := by
  cases op with
  | subscribe =>
      rw [Operation.deliver, Inboxes.hear_nil]
      exact .subscribe _
  | leave k =>
      rw [Operation.deliver, Inboxes.hear_nil]
      exact .leave _ k
  | _ => exact absurd h Bool.false_ne_true

theorem Performs.eq_of_isSubscription (h : Performs seeding m op m')
    (hop : op.isSubscription = true) : m' = m.withInboxes (op.deliver [] m.journal.inboxes) := by
  cases h with
  | subscribe =>
      rw [Operation.deliver, Inboxes.hear_nil]
      rfl
  | leave =>
      rw [Operation.deliver, Inboxes.hear_nil]
      rfl
  | _ => exact absurd hop Bool.false_ne_true

/-- If a session can go a certain way whenever it does not begin with a subscription, it can always
    do so. -/
theorem performsAll_of_head {proper : List Operation} {sent : List (List Event)}
    (h : ∀ ops, ops.filter (!·.isSubscription) = proper →
      (∀ op ∈ ops.head?, op.isSubscription = false) → ∀ boxes : Inboxes,
      PerformsAll seeding (m.withInboxes boxes) ops
        (r.withInboxes (boxes.deliverAll ops (Operation.spread ops sent))))
    (hops : ops.filter (!·.isSubscription) = proper) (boxes : Inboxes) :
    PerformsAll seeding (m.withInboxes boxes) ops
      (r.withInboxes (boxes.deliverAll ops (Operation.spread ops sent))) := by
  induction ops generalizing boxes with
  | nil => exact h [] hops nofun boxes
  | cons op ops ih =>
      cases hop : op.isSubscription with
      | true =>
          rw [List.filter_cons_of_neg (by simp [hop])] at hops
          rw [Operation.spread_cons_of_isSubscription hop]
          exact .cons (performs_of_isSubscription hop m boxes) (ih hops _)
      | false => exact h (op :: ops) hops (by simpa using hop) boxes

/-- A session can go the same way with other subscribers, whatever the inboxes hold, and what is
    sent is the same. -/
theorem PerformsAll.exists_sent (h : PerformsAll seeding m ops r)
    (hblind : ∀ op ∈ ops, op.IsBlind) :
    ∃ sent : List (List Event), sent.length = ops.countP (!·.isSubscription) ∧
      r.journal.inboxes = Inboxes.deliverAll m.journal.inboxes ops (Operation.spread ops sent) ∧
      ∀ ops', ops'.filter (!·.isSubscription) = ops.filter (!·.isSubscription) →
        ∀ boxes : Inboxes, PerformsAll seeding (m.withInboxes boxes) ops'
          (r.withInboxes (boxes.deliverAll ops' (Operation.spread ops' sent))) := by
  induction h with
  | nil m =>
      refine ⟨[], rfl, rfl, fun ops' => performsAll_of_head fun ops' hops hhead boxes => ?_⟩
      cases ops' with
      | nil => exact .nil _
      | cons op' ops' =>
          have hop' := List.filter_eq_nil_iff.1 hops op' List.mem_cons_self
          exact absurd (hhead op' rfl) (by simpa using hop')
  | @cons m m' r op ops hfirst hrest ih =>
      obtain ⟨sent, hlength, hinboxes, hall⟩ :=
        ih fun op hmem => hblind op (List.mem_cons_of_mem _ hmem)
      cases hop : op.isSubscription with
      | true =>
          obtain rfl := hfirst.eq_of_isSubscription hop
          refine ⟨sent, ?_, ?_, fun ops' hops => ?_⟩
          · rw [hlength, List.countP_cons_of_neg (by simp [hop])]
          · rw [Operation.spread_cons_of_isSubscription hop]
            exact hinboxes
          · rw [List.filter_cons_of_neg (by simp [hop])] at hops
            exact hall ops' hops
      | false =>
          obtain ⟨es, hsends⟩ := hfirst.exists_sends (hblind _ List.mem_cons_self)
          refine ⟨es :: sent, ?_, ?_, fun ops' => performsAll_of_head ?_⟩
          · rw [List.length_cons, hlength, List.countP_cons_of_pos (by simp [hop])]
          · rw [Operation.spread_cons hop, hinboxes, hsends.inboxes]
            rfl
          · intro ops' hops hhead boxes
            rw [List.filter_cons_of_pos (by simp [hop])] at hops
            cases ops' with
            | nil => exact absurd hops (by simp)
            | cons op' ops' =>
                have hop' := hhead op' rfl
                rw [List.filter_cons_of_pos (by simp [hop'])] at hops
                obtain ⟨rfl, hops'⟩ := List.cons.inj hops
                rw [Operation.spread_cons hop]
                exact .cons (hsends.alike boxes) (hall ops' hops' _)

end Machine

/-- Whatever is done to a journal, and whoever leaves at any moment of it, the channels deliver what
    the journal says: each subscriber gets the events since its own subscription, in order and once,
    until it leaves. What is recorded is the ascending list of the cells since the last `clear`, and
    it is the same whoever subscribes or leaves. In a session subscribers can come and leave between
    all operations; the others can then be the same, with the same answers and the same machine at
    the end except for its inboxes, and each subscriber that stays has got what the operations after
    its own subscription have sent, which are the same events. -/
theorem events_reach_each_subscriber (actions : List Journal.Action) {seeding : Seeding}
    {m r : Machine} {ops : List Operation} (h : Machine.PerformsAll seeding m ops r)
    (hblind : ∀ op ∈ ops, op.IsBlind) :
    (Broadcast.run {} actions).journal = Journal.run {} actions ∧
      (Broadcast.run {} actions).Delivers actions ∧
      (∀ actions', actions'.filter (!·.isSubscription) = actions.filter (!·.isSubscription) →
        (Journal.run {} actions').changes = (Journal.run {} actions).changes ∧
        (Journal.run {} actions').registers = (Journal.run {} actions).registers) ∧
      ∃ sent : List (List Event), sent.length = ops.countP (!·.isSubscription) ∧
        Inboxes.Heard m.journal.inboxes ops sent r.journal.inboxes ∧
        ∀ ops', ops'.filter (!·.isSubscription) = ops.filter (!·.isSubscription) →
          ∃ boxes, Machine.PerformsAll seeding m ops' (r.withInboxes boxes) ∧
            Inboxes.Heard m.journal.inboxes ops' sent boxes := by
  refine ⟨Broadcast.journal_run Broadcast.sound_empty actions, Broadcast.delivers_run actions,
    fun actions' hactions => ?_, ?_⟩
  · have hrecorded := Journal.recorded_run_filter (j := {}) rfl rfl actions
    have hrecorded' := Journal.recorded_run_filter (j := {}) rfl rfl actions'
    rw [hactions] at hrecorded'
    exact ⟨congrArg Std.TreeSet.toList (hrecorded'.1.trans hrecorded.1.symm),
      hrecorded'.2.trans hrecorded.2.symm⟩
  · obtain ⟨sent, hlength, hinboxes, hall⟩ := h.exists_sent hblind
    refine ⟨sent, hlength, ?_, fun ops' hops => ⟨_, hall ops' hops m.journal.inboxes, ?_⟩⟩
    · rw [hinboxes]
      exact Inboxes.heard_deliverAll hlength m.journal.inboxes
    · refine Inboxes.heard_deliverAll ?_ m.journal.inboxes
      rw [hlength, List.countP_eq_length_filter, List.countP_eq_length_filter, hops]

/-- The first subscriber leaves before the event, and the second one gets it, as it would alone. -/
theorem events_reach_each_subscriber_other_left :
    (Broadcast.run {} [.subscribe, .subscribe, .leave 0, .notify .labelsChanged]).channels[1]? =
        some ⟨[.labelsChanged], true⟩ ∧
      ∃ boxes, Machine.PerformsAll (fun _ _ => 0) (Machine.new default 0 {})
          [.subscribe, .leave 0, .subscribe, .notify .labelsChanged]
          (((Machine.new default 0 {}).subscribe.tell [.labelsChanged]).withInboxes boxes) ∧
        boxes[1]? = some (some [.labelsChanged]) := by
  have hperforms : Machine.PerformsAll (fun _ _ => 0) (Machine.new default 0 {})
      [.subscribe, .notify .labelsChanged]
      ((Machine.new default 0 {}).subscribe.tell [.labelsChanged]) :=
    .cons (.subscribe _) (.cons (.notify _ _) (.nil _))
  obtain ⟨-, hdelivers, -, sent, -, hown, hall⟩ := events_reach_each_subscriber
    [.subscribe, .subscribe, .leave 0, .notify .labelsChanged] hperforms
    (by simp [Operation.IsBlind])
  obtain ⟨boxes, hperforms', hheard⟩ :=
    hall [.subscribe, .leave 0, .subscribe, .notify .labelsChanged] rfl
  refine ⟨hdelivers.stays [.subscribe] [.leave 0, .notify .labelsChanged] rfl (by decide), boxes,
    hperforms', ?_⟩
  have hsent := hown.comes [] [.notify .labelsChanged] rfl (by simp)
  have hother := hheard.comes [.subscribe, .leave 0] [.notify .labelsChanged] rfl (by simp)
  exact hother.trans hsent.symm

end DecimalMachine
