import DecimalMachine.Proofs.Machine.Course
import DecimalMachine.Proofs.Machine.Loading

set_option autoImplicit false

/-! # Operations

All that can be done to a machine is listed here once, each operation with the answer that it gives
(`Machine.Performs`), and a session is a row of operations (`Machine.PerformsAll`). Two things are
not determined by the machine: a request to stop can come at any time during a run, and values that
come without a seed can be any, and other ones every time. What holds after an operation is derived
from two tables, each of them one case analysis: what it leaves alone (`Machine.Performs.keeps`),
and how far the machine has come then (`Machine.Performs.proceeds`). -/

namespace DecimalMachine

/-! ## Tripwires and inboxes -/

/-- The inboxes of the subscribers, in the order of subscription; of one that has left nothing is
    kept. -/
abbrev Inboxes := List (Option (List Event))

/-- The machine with other inboxes. -/
def Machine.withInboxes (m : Machine) (boxes : Inboxes) : Machine :=
  { m with journal := { m.journal with inboxes := boxes } }

/-- A tripwire that does not look into the inboxes: those are with the subscribers. -/
def Machine.Tripwire.IsBlind {σ : Type} (trip : Machine.Tripwire σ) : Prop :=
  ∀ s m boxes, trip s (m.withInboxes boxes) = trip s m

/-! ## Operations and their kinds -/

/-- An operation on a machine, with the answer that it gives. An execution says besides how many
    instructions were completed in it. -/
inductive Operation : Type 1
  | load (o : Object) (answer : Except Fault Unit)
  | setMemory (values : List Cell) (answer : Except Fault Unit)
  | resize (capacity : Nat)
  | reset
  | rewind
  | clearRegisters
  | startAtLine (line : Nat) (answer : Option Nat)
  | step (n : Nat) (answer : Except Fault Unit)
  /-- A run under a tripwire; the state that the tripwire ends in is part of the answer. -/
  | run {σ : Type} (trip : Machine.Tripwire σ) (s s' : σ) (n : Nat) (answer : Except Fault Unit)
  | runAtMost (limit : UInt64) (n : Nat) (answer : Except Fault Unit)
  /-- A handle is taken. -/
  | stopHandle (answer : StopHandle)
  /-- A request to stop between two runs. -/
  | stop (h : StopHandle)
  /-- Memory and registers, changed by hand. -/
  | edit (core : Core)
  /-- The count of instructions, set by hand. -/
  | recount (executed : UInt64)
  | setFlags (flags : Flags)
  /-- The recorded changes, changed by hand. -/
  | record (changed : Std.TreeSet Nat) (registers : Bool)
  /-- An event, sent by hand. -/
  | notify (e : Event)
  | addBreakpoint (b : Breakpoint) (isNew : Bool)
  | removeBreakpoint (b : Breakpoint) (wasThere : Bool)
  | clearBreakpoints
  | subscribe
  /-- The subscriber of a number leaves. -/
  | leave (i : Nat)

namespace Operation

/-- Whether an operation sets the program to its start. -/
def restarts : Operation → Bool
  | load _ (.ok ()) => true
  | reset => true
  | rewind => true
  | startAtLine _ (some _) => true
  | _ => false

/-- Whether an operation sets the count by hand. -/
def recounts : Operation → Bool
  | recount _ => true
  | _ => false

/-- How many instructions are completed in an operation. -/
def completed : Operation → Nat
  | step n _ => n
  | run _ _ _ n _ => n
  | runAtMost _ n _ => n
  | _ => 0

/-- Whether an operation sets the flags. -/
def setsFlags : Operation → Bool
  | resize _ => true
  | setFlags _ => true
  | _ => false

/-- Whether an operation sets the symbols of the program. -/
def setsSymbols : Operation → Bool
  | load _ (.ok ()) => true
  | reset => true
  | _ => false

/-- An operation that does not look into the inboxes. -/
def IsBlind : Operation → Prop
  | run trip _ _ _ _ => trip.IsBlind
  | _ => True

end Operation

namespace Machine

/-! ## What operations do -/

/-- A machine as it can be made under some flags. -/
inductive IsNew (seeding : Seeding) (flags : Flags) : Machine → Prop
  | mk (unseeded : Nat → Cell) (switch : Switch) :
      IsNew seeding flags (new ⟨seeding, unseeded⟩ switch flags)

/-- What an operation can do to a machine, where each seed gives its values. One that refuses its
    arguments leaves the machine as it was. -/
inductive Performs (seeding : Seeding) : Machine → Operation → Machine → Prop
  | load {m m' : Machine} {o : Object} :
      m.load o = .ok m' → Performs seeding m (.load o (.ok ())) m'
  | loadRefused {m : Machine} {o : Object} {f : Fault} :
      m.load o = .error f → Performs seeding m (.load o (.error f)) m
  | setMemory {m m' : Machine} {values : List Cell} :
      m.setMemory values = .ok m' → Performs seeding m (.setMemory values (.ok ())) m'
  | setMemoryRefused {m : Machine} {values : List Cell} {f : Fault} :
      m.setMemory values = .error f → Performs seeding m (.setMemory values (.error f)) m
  | resize (m : Machine) (capacity : Nat) (unseeded : Nat → Cell) :
      Performs seeding m (.resize capacity) (m.resize ⟨seeding, unseeded⟩ capacity)
  | reset (m : Machine) (unseeded : Nat → Cell) :
      Performs seeding m .reset (m.reset ⟨seeding, unseeded⟩)
  | rewind (m : Machine) : Performs seeding m .rewind m.rewind
  | clearRegisters (m : Machine) : Performs seeding m .clearRegisters m.clearRegisters
  | startAtLine {m m' : Machine} {line a : Nat} :
      m.startAtLine? line = some (m', a) → Performs seeding m (.startAtLine line (some a)) m'
  | startAtLineRefused {m : Machine} {line : Nat} :
      m.startAtLine? line = none → Performs seeding m (.startAtLine line none) m
  | step (m : Machine) : Performs seeding m (.step m.completed m.step.2) m.step.1
  | run {m m' : Machine} {σ : Type} {trip : Tripwire σ} {s s' : σ} {n : Nat}
      {answer : Except Fault Unit} :
      Runs trip s m s' n m' answer → Performs seeding m (.run trip s s' n answer) m'
  | runAtMost {m m' : Machine} {limit : UInt64} {n : Nat} {answer : Except Fault Unit} :
      Runs (limited m.executed limit) () m () n m' answer →
      Performs seeding m (.runAtMost limit n answer) m'
  | stopHandle (m : Machine) : Performs seeding m (.stopHandle m.stopHandle) m
  | stop (m : Machine) (h : StopHandle) : Performs seeding m (.stop h) (m.stopBy h)
  | edit (m : Machine) (core : Core) : Performs seeding m (.edit core) { m with core }
  | recount (m : Machine) (executed : UInt64) :
      Performs seeding m (.recount executed) { m with executed }
  | setFlags (m : Machine) (flags : Flags) : Performs seeding m (.setFlags flags) { m with flags }
  | record (m : Machine) (changed : Std.TreeSet Nat) (registers : Bool) :
      Performs seeding m (.record changed registers)
        { m with journal := { m.journal with changed, registers } }
  | notify (m : Machine) (e : Event) : Performs seeding m (.notify e) (m.tell [e])
  | addBreakpoint (m : Machine) (b : Breakpoint) :
      Performs seeding m (.addBreakpoint b (m.addBreakpoint b).2) (m.addBreakpoint b).1
  | removeBreakpoint (m : Machine) (b : Breakpoint) :
      Performs seeding m (.removeBreakpoint b (m.removeBreakpoint b).2) (m.removeBreakpoint b).1
  | clearBreakpoints (m : Machine) : Performs seeding m .clearBreakpoints m.clearBreakpoints
  | subscribe (m : Machine) : Performs seeding m .subscribe m.subscribe
  | leave (m : Machine) (i : Nat) : Performs seeding m (.leave i) (m.leave i)

/-- A session: operations one after the other. -/
inductive PerformsAll (seeding : Seeding) : Machine → List Operation → Machine → Prop
  | nil (m : Machine) : PerformsAll seeding m [] m
  | cons {m m' r : Machine} {op : Operation} {ops : List Operation} :
      Performs seeding m op m' → PerformsAll seeding m' ops r → PerformsAll seeding m (op :: ops) r

variable {seeding : Seeding} {m m' r : Machine} {op : Operation} {ops : List Operation}

/-! ### Runs of the machine

A run of the machine is an operation in which no request to stop came in. -/

theorem performs_of_runUnder {σ : Type} {trip : Tripwire σ} {s s' : σ} {steps : Nat}
    {answer : Except Fault Unit} (h : runUnder trip steps s m = some (m', s', answer)) :
    ∃ n, Performs seeding m (.run trip s s' n answer) m' := by
  obtain ⟨n, hruns⟩ := runs_of_runUnder h
  exact ⟨n, .run hruns⟩

theorem performs_of_run {steps : Nat} {answer : Except Fault Unit}
    (h : m.run steps = some (m', answer)) :
    ∃ n, Performs seeding m (.run unconditional () () n answer) m' := by
  obtain ⟨n, hruns⟩ := runs_of_run h
  exact ⟨n, .run hruns⟩

theorem performs_of_runAtMost {limit : UInt64} {answer : Except Fault Unit}
    (h : m.runAtMost limit = some (m', answer)) :
    ∃ n, Performs seeding m (.runAtMost limit n answer) m' := by
  obtain ⟨n, hruns⟩ := runs_of_runAtMost h
  exact ⟨n, .runAtMost hruns⟩

/-! ### Sessions -/

/-- What every operation of a session preserves, the session does. -/
theorem PerformsAll.preserves {P : Machine → Prop} (h : PerformsAll seeding m ops r)
    (hop : ∀ op ∈ ops, ∀ m m', Performs seeding m op m' → P m → P m') (hm : P m) : P r := by
  induction h with
  | nil => exact hm
  | cons hfirst _ ih =>
      exact ih (fun op hmem => hop op (List.mem_cons_of_mem _ hmem))
        (hop _ List.mem_cons_self _ _ hfirst hm)

/-! ### Single operations -/

theorem startAtLine?_eq_some_iff {line a : Nat} :
    m.startAtLine? line = some (m', a) ↔
      m.symbols.lineAddress? line = some a ∧ m' = rewind { m with start := a } := by
  rw [startAtLine?, Option.map_eq_some_iff]
  constructor
  · rintro ⟨b, hb, heq⟩
    obtain ⟨rfl, rfl⟩ := Prod.mk.inj heq
    exact ⟨hb, rfl⟩
  · rintro ⟨ha, rfl⟩
    exact ⟨a, ha, rfl⟩

theorem exists_addBreakpoint (m : Machine) (b : Breakpoint) :
    ∃ breakpoints, (m.addBreakpoint b).1 = { m with breakpoints } := by
  unfold Machine.addBreakpoint
  split <;> exact ⟨_, rfl⟩

theorem exists_removeBreakpoint (m : Machine) (b : Breakpoint) :
    ∃ breakpoints, (m.removeBreakpoint b).1 = { m with breakpoints } := by
  unfold Machine.removeBreakpoint
  split <;> exact ⟨_, rfl⟩

/-! ## What operations leave alone -/

/-- What an operation leaves as it was. -/
structure Keeps (m : Machine) (op : Operation) (r : Machine) : Prop where
  switch : r.switch = m.switch
  running : m.running = false → r.running = false
  flags : op.setsFlags = false → r.flags = m.flags
  symbols : op.setsSymbols = false → r.symbols = m.symbols

theorem Runs.keeps {σ : Type} {trip : Tripwire σ} {s s' : σ} {n : Nat}
    {answer : Except Fault Unit} (h : Runs trip s m s' n r answer) : Keeps m op r := by
  obtain ⟨hrunning, hsetup⟩ := h.frame
  exact ⟨hsetup.switch, fun _ => hrunning, fun _ => hsetup.flags, fun _ => hsetup.symbols⟩

theorem Performs.keeps (h : Performs seeding m op r) : Keeps m op r := by
  cases h with
  | load hload =>
      obtain ⟨-, rfl⟩ := load_eq_ok_iff.1 hload
      exact ⟨rfl, id, fun _ => rfl, nofun⟩
  | setMemory hset =>
      obtain ⟨-, rfl⟩ := setMemory_eq_ok_iff.1 hset
      exact ⟨rfl, id, fun _ => rfl, fun _ => rfl⟩
  | resize => exact ⟨rfl, id, nofun, fun _ => rfl⟩
  | reset => exact ⟨rfl, id, fun _ => rfl, nofun⟩
  | startAtLine hline =>
      obtain ⟨-, rfl⟩ := startAtLine?_eq_some_iff.1 hline
      exact ⟨rfl, id, fun _ => rfl, fun _ => rfl⟩
  | step =>
      obtain ⟨hsetup, -, hrunning, -⟩ := frame_execute { m with journal := m.journal.clear }
      rw [step_eq]
      exact ⟨hsetup.switch, hrunning.trans, fun _ => hsetup.flags, fun _ => hsetup.symbols⟩
  | run hruns => exact hruns.keeps
  | runAtMost hruns => exact hruns.keeps
  | stop h =>
      refine ⟨rfl, fun hrunning => ?_, fun _ => rfl, fun _ => rfl⟩
      rw [stopBy, hrunning, Bool.false_and]
  | setFlags => exact ⟨rfl, id, nofun, fun _ => rfl⟩
  | addBreakpoint b =>
      obtain ⟨breakpoints, hadd⟩ := m.exists_addBreakpoint b
      rw [hadd]
      exact ⟨rfl, id, fun _ => rfl, fun _ => rfl⟩
  | removeBreakpoint b =>
      obtain ⟨breakpoints, hremove⟩ := m.exists_removeBreakpoint b
      rw [hremove]
      exact ⟨rfl, id, fun _ => rfl, fun _ => rfl⟩
  | _ => exact ⟨rfl, id, fun _ => rfl, fun _ => rfl⟩

theorem PerformsAll.switch_eq (h : PerformsAll seeding m ops r) : r.switch = m.switch :=
  h.preserves (P := fun x => x.switch = m.switch)
    (fun _ _ _ _ hop hx => hop.keeps.switch.trans hx) rfl

theorem PerformsAll.running_eq_false (h : PerformsAll seeding m ops r)
    (hm : m.running = false) : r.running = false :=
  h.preserves (fun _ _ _ _ hop => hop.keeps.running) hm

theorem PerformsAll.flags_eq (h : PerformsAll seeding m ops r)
    (hops : ∀ op ∈ ops, op.setsFlags = false) : r.flags = m.flags :=
  h.preserves (P := fun x => x.flags = m.flags)
    (fun op hmem _ _ hop hx => (hop.keeps.flags (hops op hmem)).trans hx) rfl

/-- A machine has the symbols of the object file that it has loaded until other ones are set. -/
theorem PerformsAll.symbols_eq_of_load {before : Machine} {o : Object}
    (hload : before.load o = .ok m) (h : PerformsAll seeding m ops r)
    (hops : ∀ op ∈ ops, op.setsSymbols = false) : r.symbols = o.symbols := by
  obtain ⟨-, rfl⟩ := load_eq_ok_iff.1 hload
  exact h.preserves (P := fun x => x.symbols = o.symbols)
    (fun op hmem _ _ hop hx => (hop.keeps.symbols (hops op hmem)).trans hx) rfl

/-! ## How far operations go -/

/-- How far a machine comes in an operation. -/
inductive Proceeds (m : Machine) (op : Operation) (r : Machine) : Prop
  | restart (hop : op.restarts = true) (hstatus : r.status = .ready) (hexecuted : r.executed = 0)
      (hpause : r.pause = none)
  | step (hop : op.restarts = false) (hcompleted : op.completed = m.completed)
      (hstep : r = m.step.1)
  | run {σ : Type} {trip : Tripwire σ} {s s' : σ} {answer : Except Fault Unit}
      (hop : op.restarts = false) (hruns : Runs trip s m s' op.completed r answer)
  | stay (hop : op.restarts = false) (hcompleted : op.completed = 0)
      (hstatus : r.status = m.status)
      (hexecuted : op.recounts = false → r.executed = m.executed) (hpause : r.pause = m.pause)

theorem Performs.proceeds (h : Performs seeding m op r) : Proceeds m op r := by
  cases h with
  | load hload =>
      obtain ⟨-, rfl⟩ := load_eq_ok_iff.1 hload
      exact .restart rfl rfl rfl rfl
  | setMemory hset =>
      obtain ⟨-, rfl⟩ := setMemory_eq_ok_iff.1 hset
      exact .stay rfl rfl rfl (fun _ => rfl) rfl
  | reset => exact .restart rfl rfl rfl rfl
  | rewind => exact .restart rfl rfl rfl rfl
  | startAtLine hline =>
      obtain ⟨-, rfl⟩ := startAtLine?_eq_some_iff.1 hline
      exact .restart rfl rfl rfl rfl
  | step => exact .step rfl rfl rfl
  | run hruns => exact .run rfl hruns
  | runAtMost hruns => exact .run rfl hruns
  | recount => exact .stay rfl rfl rfl nofun rfl
  | addBreakpoint b =>
      obtain ⟨breakpoints, hadd⟩ := m.exists_addBreakpoint b
      rw [hadd]
      exact .stay rfl rfl rfl (fun _ => rfl) rfl
  | removeBreakpoint b =>
      obtain ⟨breakpoints, hremove⟩ := m.exists_removeBreakpoint b
      rw [hremove]
      exact .stay rfl rfl rfl (fun _ => rfl) rfl
  | _ => exact .stay rfl rfl rfl (fun _ => rfl) rfl

/-- An operation that sets the program to its start leaves nothing executed. -/
theorem Performs.fresh (h : Performs seeding m op r) (hop : op.restarts = true) :
    r.status = .ready ∧ r.executed = 0 := by
  cases h.proceeds with
  | restart _ hstatus hexecuted => exact ⟨hstatus, hexecuted⟩
  | step hno => exact absurd (hno.symm.trans hop) Bool.false_ne_true
  | run hno => exact absurd (hno.symm.trans hop) Bool.false_ne_true
  | stay hno => exact absurd (hno.symm.trans hop) Bool.false_ne_true

end Machine

end DecimalMachine
