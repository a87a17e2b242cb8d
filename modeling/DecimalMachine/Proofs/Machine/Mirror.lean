import DecimalMachine.Proofs.Machine.Changes
import DecimalMachine.Proofs.Machine.Operation

set_option autoImplicit false

/-! # Mirrors

A subscriber can keep a copy of memory and registers, a mirror, without ever copying all of memory
again: after every operation it reads the cells that the new events list and takes the registers
that they tell (`Mirror.refresh`). Each operation announces what it does to the core on a way of its
own; that its events tell everything (`Tells`) is one lemma for each of them
(`Machine.informs_load`, …, `Machine.informs_runs`), from which the mirror is right after any
number of them (`Machine.mirror_eq_of_watches`). -/

namespace DecimalMachine

/-! ## Reading events -/

namespace Event

/-- The cells that an event lists. -/
def cells : Event → List Nat
  | memoryChanged cells => cells
  | registersChanged _ _ => []
  | labelsChanged => []

/-- The registers after an event, given those known before it. -/
def registers (known : Cell × Nat) : Event → Cell × Nat
  | memoryChanged _ => known
  | registersChanged acu pc => (acu, pc)
  | labelsChanged => known

/-- The cells that some events list. -/
def listed (events : List Event) : List Nat :=
  events.flatMap cells

/-- The registers that some events tell last, or those known before them. -/
def latest (known : Cell × Nat) (events : List Event) : Cell × Nat :=
  events.foldl registers known

theorem listed_append (es fs : List Event) : listed (es ++ fs) = listed es ++ listed fs := by
  exact List.flatMap_append

theorem latest_append (known : Cell × Nat) (es fs : List Event) :
    latest known (es ++ fs) = latest (latest known es) fs := by
  exact List.foldl_append

theorem listed_memoryEvent (l : List Nat) : listed (Journal.memoryEvent l) = l := by
  cases l with
  | nil => rfl
  | cons a l => exact List.append_nil _

theorem latest_memoryEvent (known : Cell × Nat) (l : List Nat) :
    latest known (Journal.memoryEvent l) = known := by
  cases l <;> rfl

end Event

/-! ## Mirrors -/

/-- What a subscriber keeps: the cells of memory, by their addresses, and the registers. -/
structure Mirror where
  cells : Nat → Option Cell
  registers : Cell × Nat

namespace Mirror

/-- A copy of memory and registers. -/
def of (c : Core) : Mirror :=
  ⟨fun a => c.memory.cells[a]?, (c.acu, c.pc)⟩

/-- A mirror brought up to date after some events. Cells past the end of memory are dropped, those
    that the events list are read again, and all others are kept; the registers are the last ones
    told, if any were. -/
def refresh (c : Mirror) (events : List Event) (memory : Memory) : Mirror where
  cells a :=
    if a < memory.size then
      if a ∈ Event.listed events then memory.cells[a]? else c.cells a
    else none
  registers := Event.latest c.registers events

end Mirror

/-- Some events tell all that became of a core. -/
structure Tells (events : List Event) (c c' : Core) : Prop where
  memory : Memory.Covers (Event.listed events) c.memory c'.memory
  registers : Event.latest (c.acu, c.pc) events = (c'.acu, c'.pc)

theorem tells_refl (c : Core) : Tells [] c c :=
  ⟨Memory.covers_refl _, rfl⟩

theorem Tells.refresh_eq {events : List Event} {c c' : Core} (h : Tells events c c') :
    (Mirror.of c).refresh events c'.memory = .of c' := by
  have hcells : ((Mirror.of c).refresh events c'.memory).cells = (Mirror.of c').cells := by
    funext a
    show (if a < c'.memory.size then
        if a ∈ Event.listed events then c'.memory.cells[a]? else c.memory.cells[a]?
      else none) = c'.memory.cells[a]?
    split
    · rename_i hlt
      split
      · rfl
      · rename_i hnot
        exact (h.memory.others a hlt hnot).symm
    · rename_i hge
      exact (Array.getElem?_eq_none (Nat.le_of_not_lt hge)).symm
  show Mirror.mk _ _ = Mirror.mk _ _
  rw [Mirror.mk.injEq]
  exact ⟨hcells, h.registers⟩

/-- A list of changed cells is ascending and within memory, whichever of the events it is in. -/
theorem Tells.ascending_within {events : List Event} {c c' : Core} (h : Tells events c c')
    {cells : List Nat} (hmem : .memoryChanged cells ∈ events) :
    cells.Pairwise (· < ·) ∧ ∀ a ∈ cells, a < c'.memory.size := by
  constructor
  · exact (List.pairwise_flatMap.1 h.memory.ascending).1 _ hmem
  · intro a ha
    exact h.memory.within a (List.mem_flatMap.2 ⟨_, hmem, ha⟩)

namespace Machine

/-! ## Operations and their events -/

/-- A subscriber is told all that became of the core between two machines: its inbox grows by
    exactly the events that tell it. -/
structure Informs (k : Nat) (m m' : Machine) (news : List Event) : Prop where
  inbox : ∀ inbox, m.journal.inboxes[k]? = some (some inbox) →
    m'.journal.inboxes[k]? = some (some (inbox ++ news))
  tells : Tells news m.core m'.core

variable {k : Nat} {m m' r : Machine}

/-- Where neither core nor inbox changes, there is nothing to tell. -/
theorem informs_nil (hcore : m'.core = m.core)
    (hinbox : ∀ inbox, m.journal.inboxes[k]? = some (some inbox) →
      m'.journal.inboxes[k]? = some (some inbox)) : Informs k m m' [] := by
  constructor
  · intro inbox h
    rw [List.append_nil]
    exact hinbox inbox h
  · rw [hcore]
    exact tells_refl _

theorem Informs.congr {news : List Event} (h : Informs k m r news) (hcore : m'.core = r.core)
    (hjournal : m'.journal = r.journal) : Informs k m m' news := by
  constructor
  · rw [hjournal]
    exact h.inbox
  · rw [hcore]
    exact h.tells

/-- To tell what became of the core is to inform every subscriber of it. -/
theorem informs_tell {news : List Event} (hinboxes : r.journal.inboxes = m.journal.inboxes)
    (h : Tells news m.core r.core) : Informs k m (r.tell news) news := by
  refine ⟨?_, h⟩
  intro inbox hinbox
  show (r.journal.notifyAll news).inboxes[k]? = _
  rw [Journal.inboxes_notifyAll, hinboxes, List.getElem?_map, hinbox]
  rfl

/-! ### Programs and memory -/

theorem informs_load {o : Object} (h : m.load o = .ok m') : ∃ news, Informs k m m' news := by
  obtain ⟨-, rfl⟩ := load_eq_ok_iff.1 h
  -- the registers are told first, by rewinding, and the cells after them
  rw [rewind, tell_append]
  refine ⟨_, informs_tell rfl ?_⟩
  constructor
  · rw [Event.listed_append, Event.listed_append, Event.listed_memoryEvent]
    show Memory.Covers ([] ++ ((m.core.memory.storeAll o.cells).2 ++ [])) _ _
    rw [List.nil_append, List.append_nil]
    exact Memory.covers_storeAll _ o.ascending_cells
  · rw [Event.latest_append, Event.latest_append, Event.latest_memoryEvent]
    rfl

theorem informs_setMemory {values : List Cell} (h : m.setMemory values = .ok m') :
    ∃ news, Informs k m m' news := by
  obtain ⟨-, rfl⟩ := setMemory_eq_ok_iff.1 h
  refine ⟨_, informs_tell rfl ?_⟩
  constructor
  · rw [Event.listed_memoryEvent]
    exact Memory.covers_storeAll _ (ascending_zipIdx values)
  · rw [Event.latest_memoryEvent]

theorem informs_resize (m : Machine) (r : Randomness) (capacity : Nat) :
    ∃ news, Informs k m (m.resize r capacity) news := by
  refine ⟨_, informs_tell rfl ?_⟩
  constructor
  · rw [Event.listed_memoryEvent]
    exact Memory.covers_resize _ _ _
  · rw [Event.latest_memoryEvent]

theorem informs_reset (m : Machine) (r : Randomness) : ∃ news, Informs k m (m.reset r) news := by
  refine ⟨_, informs_tell rfl ?_⟩
  constructor
  · show Memory.Covers (List.range _ ++ []) _ _
    rw [List.append_nil]
    exact Memory.covers_range _ _
  · rfl

theorem informs_rewind (m : Machine) : ∃ news, Informs k m m.rewind news := by
  exact ⟨_, informs_tell rfl ⟨Memory.covers_refl _, rfl⟩⟩

theorem informs_clearRegisters (m : Machine) : ∃ news, Informs k m m.clearRegisters news := by
  exact ⟨_, informs_tell rfl ⟨Memory.covers_refl _, rfl⟩⟩

theorem informs_startAtLine {line a : Nat} (h : m.startAtLine? line = some (m', a)) :
    ∃ news, Informs k m m' news := by
  obtain ⟨-, rfl⟩ := startAtLine?_eq_some_iff.1 h
  obtain ⟨news, hinbox, htells⟩ := informs_rewind (k := k) { m with start := a }
  exact ⟨news, hinbox, htells⟩

/-! ### Execution -/

/-- To publish what instructions have recorded is to inform every subscriber of what they did. -/
theorem informs_publish (hinboxes : r.journal.inboxes = m.journal.inboxes)
    (h : Recorded m.core r) : ∃ news, Informs k m r.publish news := by
  refine ⟨_, informs_tell (r := r) hinboxes ?_⟩
  constructor
  · have hlisted : Event.listed (r.journal.recorded r.core.acu r.core.pc) = r.journal.changes := by
      rw [Journal.recorded, Event.listed_append, Event.listed_memoryEvent]
      split <;> exact List.append_nil _
    rw [hlisted]
    exact h.covers
  · -- registers that are not told are those known before
    rw [Journal.recorded, Event.latest_append, Event.latest_memoryEvent]
    cases hregisters : r.journal.registers with
    | true => rfl
    | false => exact (h.registers hregisters).symm

theorem informs_step (m : Machine) : ∃ news, Informs k m m.step.1 news := by
  rw [step_eq]
  refine informs_publish ?_ (recorded_execute (recorded_clear rfl m rfl))
  exact (frame_execute { m with journal := m.journal.clear }).inboxes

theorem informs_runs {σ : Type} {trip : Tripwire σ} {s s' : σ} {n : Nat}
    {answer : Except Fault Unit} (h : Runs trip s m s' n m' answer) :
    ∃ news, Informs k m m' news := by
  -- during a run nothing is sent, but all is recorded
  obtain ⟨r, reason, ⟨hrecorded, hinboxes⟩, hfinish⟩ := h.exists_left
    (P := fun c => Recorded m.core c.machine ∧ c.machine.journal.inboxes = m.journal.inboxes)
    ⟨recorded_clear rfl m rfl, rfl⟩
    fun c d hmove hc => ⟨hmove.recorded hc.1, hmove.frame.2.trans hc.2⟩
  obtain ⟨news, hnews⟩ := informs_publish (k := k) (r := { r with running := false }) hinboxes
    (hrecorded.congr rfl rfl)
  obtain ⟨rfl, -⟩ := Prod.mk.inj hfinish
  cases reason with
  | ok pause => exact ⟨news, hnews.congr rfl rfl⟩
  | error f => exact ⟨news, hnews⟩

end Machine

/-! ## Sequences of operations -/

/-- An operation that announces itself what it changes, and in which the subscriber of a number
    stays. Memory and registers changed by hand are not announced, and of an event sent by hand
    nothing needs to be true. -/
def Operation.announces (k : Nat) : Operation → Bool
  | .edit _ => false
  | .notify _ => false
  | .leave i => i != k
  | _ => true

namespace Machine

variable {seeding : Seeding} {k : Nat} {m m' : Machine} {op : Operation}

/-- Whatever is done to a machine, its events tell all that became of the core. -/
theorem Performs.informs (h : Performs seeding m op m') (hop : op.announces k = true) :
    ∃ news, Informs k m m' news := by
  cases h with
  | load hload => exact informs_load hload
  | setMemory hset => exact informs_setMemory hset
  | resize capacity unseeded => exact informs_resize m _ capacity
  | reset => exact informs_reset m _
  | rewind => exact informs_rewind m
  | clearRegisters => exact informs_clearRegisters m
  | startAtLine hline => exact informs_startAtLine hline
  | step => exact informs_step m
  | run hruns => exact informs_runs hruns
  | runAtMost hruns => exact informs_runs hruns
  | edit => exact absurd hop Bool.false_ne_true
  | notify => exact absurd hop Bool.false_ne_true
  | addBreakpoint b =>
      obtain ⟨breakpoints, hadd⟩ := m.exists_addBreakpoint b
      rw [hadd]
      exact ⟨[], informs_nil rfl fun _ h => h⟩
  | removeBreakpoint b =>
      obtain ⟨breakpoints, hremove⟩ := m.exists_removeBreakpoint b
      rw [hremove]
      exact ⟨[], informs_nil rfl fun _ h => h⟩
  | subscribe =>
      refine ⟨[], informs_nil rfl fun inbox h => ?_⟩
      show (m.journal.inboxes ++ [some []])[k]? = _
      rw [List.getElem?_append_left (List.getElem?_eq_some_iff.1 h).1]
      exact h
  | leave i =>
      have hne : i ≠ k := by simpa [Operation.announces] using hop
      exact ⟨[], informs_nil rfl fun inbox h => (List.getElem?_set_ne hne).trans h⟩
  | _ => exact ⟨[], informs_nil rfl fun _ h => h⟩

/-- What the inbox of a subscriber holds. -/
def inbox (m : Machine) (k : Nat) : List Event :=
  (m.journal.inboxes[k]?.join).getD []

/-- The events that came into an inbox between two machines. -/
def received (k : Nat) (m m' : Machine) : List Event :=
  (m'.inbox k).drop (m.inbox k).length

/-- A machine that a subscriber watches, and the mirror it keeps. It begins with a copy of the core
    and brings it up to date after every operation; its inbox may be emptied at any time between
    them. -/
inductive Watches (seeding : Seeding) (k : Nat) : Machine → Mirror → Prop
  | subscribe {m : Machine} :
      m.journal.inboxes.length = k → Watches seeding k m.subscribe (.of m.core)
  | perform {m m' : Machine} {op : Operation} {c : Mirror} :
      Watches seeding k m c → Performs seeding m op m' → op.announces k = true →
      Watches seeding k m' (c.refresh (received k m m') m'.core.memory)
  | collect {m : Machine} {c : Mirror} :
      Watches seeding k m c → Watches seeding k { m with journal := m.journal.collect.2 } c

theorem inbox_eq {inbox : List Event} (h : m.journal.inboxes[k]? = some (some inbox)) :
    m.inbox k = inbox := by
  rw [Machine.inbox, h]
  rfl

/-- What comes into an inbox is what its subscriber is informed of. -/
theorem Informs.received_eq {news inbox : List Event} (h : Informs k m m' news)
    (hinbox : m.journal.inboxes[k]? = some (some inbox)) : received k m m' = news := by
  rw [received, inbox_eq hinbox, inbox_eq (h.inbox inbox hinbox), List.drop_left]

/-- As long as a subscriber watches, it has an inbox, and its mirror is the core. -/
theorem Watches.subscribed {c : Mirror} (h : Watches seeding k m c) :
    (∃ inbox, m.journal.inboxes[k]? = some (some inbox)) ∧ c = .of m.core := by
  induction h with
  | subscribe hlength =>
      subst hlength
      exact ⟨⟨[], List.getElem?_concat_length⟩, rfl⟩
  | perform _ hperforms hop ih =>
      obtain ⟨⟨inbox, hinbox⟩, rfl⟩ := ih
      obtain ⟨news, hnews⟩ := hperforms.informs hop
      rw [hnews.received_eq hinbox]
      exact ⟨⟨_, hnews.inbox inbox hinbox⟩, hnews.tells.refresh_eq⟩
  | collect _ ih =>
      obtain ⟨⟨inbox, hinbox⟩, rfl⟩ := ih
      refine ⟨⟨[], ?_⟩, rfl⟩
      show (List.map _ _)[k]? = _
      rw [List.getElem?_map, hinbox]
      rfl

/-- The events lose no update, whatever values seeds give and whatever comes without a seed: after
    all that has been done to the machine, the mirror of a subscriber is memory and registers as
    they are, and after any further operation, also one that fails, the events received during it
    are enough to make it so again. Each list of changed cells among them is ascending and within
    memory. -/
theorem mirror_eq_of_watches {c : Mirror} (h : Watches seeding k m c) :
    c = .of m.core ∧ ∀ op m', Performs seeding m op m' → op.announces k = true →
      m'.inbox k = m.inbox k ++ received k m m' ∧
      c.refresh (received k m m') m'.core.memory = .of m'.core ∧
      ∀ cells, .memoryChanged cells ∈ received k m m' →
        cells.Pairwise (· < ·) ∧ ∀ a ∈ cells, a < m'.core.memory.size := by
  obtain ⟨⟨inbox, hinbox⟩, rfl⟩ := h.subscribed
  refine ⟨rfl, ?_⟩
  intro op m' hperforms hop
  obtain ⟨news, hnews⟩ := hperforms.informs hop
  rw [hnews.received_eq hinbox]
  refine ⟨?_, hnews.tells.refresh_eq, fun cells => hnews.tells.ascending_within⟩
  rw [inbox_eq hinbox, inbox_eq (hnews.inbox inbox hinbox)]

/-- A run that faults tells the cell that its first instruction changed. -/
theorem mirror_eq_of_watches_fault :
    ∃ m m' f, m.run 2 = some (m', .error f) ∧ Watches (fun _ _ => 0) 0 m (.of m.core) ∧
      received 0 m m' = [.memoryChanged [3], .registersChanged 0 1] ∧
      (Mirror.of m.core).refresh (received 0 m m') m'.core.memory = .of m'.core := by
  let quiet : Machine := { core := ⟨⟨#[103, -1, 7, 4]⟩, 0, 0⟩, flags := {} }
  have hwatches : Watches (fun _ _ => 0) 0 quiet.subscribe (.of quiet.subscribe.core) :=
    .subscribe rfl
  have houtcome : (quiet.subscribe.run 2).map
      (fun x => (x.2.toOption, received 0 quiet.subscribe x.1)) =
      some (none, [.memoryChanged [3], .registersChanged 0 1]) := by
    decide +kernel
  obtain ⟨⟨m', result⟩, hrun, heq⟩ := Option.map_eq_some_iff.1 houtcome
  obtain ⟨hresult, hreceived⟩ := Prod.mk.inj heq
  cases result with
  | ok => exact absurd hresult (Option.some_ne_none _)
  | error f =>
      obtain ⟨n, hperforms⟩ : ∃ n, Performs (fun _ _ => 0) quiet.subscribe
          (.run unconditional () () n (.error f)) m' := performs_of_run hrun
      exact ⟨quiet.subscribe, m', f, hrun, hwatches, hreceived,
        ((mirror_eq_of_watches hwatches).2 _ m' hperforms rfl).2.1⟩

end Machine

end DecimalMachine
