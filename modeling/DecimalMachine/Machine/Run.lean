import DecimalMachine.Machine.Basic

set_option autoImplicit false

/-! # Running

A single step, and runs of many. A run goes on until a halt, a fault, a breakpoint, a request to
stop, or until its tripwire ends it; the tripwire is asked before every step. What a run changed
is recorded in the journal and told to the subscribers once, at its end. A run that would go on
for ever has no outcome, so runs take the greatest number of steps to look for one. -/

namespace DecimalMachine.Machine

/-! ## Steps -/

/-- How a step ended. -/
inductive Outcome
  /-- An instruction was executed, and more can be. -/
  | ran
  /-- The machine has halted, in this step or before it. -/
  | halted
  /-- The machine cannot go on. -/
  | faulted (fault : Fault)
  deriving DecidableEq, Repr

/-- Executes the instruction at the instruction pointer and records what it changes. A machine
    that has halted or faulted stays as it is. -/
def execute (m : Machine) : Machine × Outcome :=
  match m.status with
  | .halted => (m, .halted)
  | .faulted f => (m, .faulted f)
  | .ready | .running =>
      match m.core.effect with
      | .error f => ({ m with status := .faulted f }, .faulted f)
      | .ok none => ({ m with status := .halted, executed := m.executed + 1 }, .halted)
      | .ok (some e) =>
          let (core, changed) := m.core.apply e
          let journal := match changed with
            | some a => m.journal.recordCell a
            | none => m.journal
          ({ m with
              core, status := .running, executed := m.executed + 1
              journal := journal.recordRegisters }, .ran)

/-- Tells the subscribers what is recorded. -/
def publish (m : Machine) : Machine :=
  { m with journal := m.journal.publish m.core.acu m.core.pc }

/-- A step by itself. Breakpoints do not matter to it. -/
def step (m : Machine) : Machine × Except Fault Unit :=
  let (m, outcome) := execute { m with journal := m.journal.clear }
  match outcome with
  | .faulted f => (m.publish, .error f)
  | _ => (m.publish, .ok ())

/-! ## Runs -/

/-- What a tripwire says: whether to take another step, and whether to ask for a stop after it. -/
structure Verdict where
  goOn : Bool
  stop : Bool := false
  deriving DecidableEq, Repr

/-- A condition asked before every step; it may carry a state from one time to the next. -/
abbrev Tripwire (σ : Type) := σ → Machine → Verdict × σ

/-- A request to stop the run. -/
def stop (m : Machine) : Machine :=
  { m with running := false }

/-- A handle of the machine. -/
def stopHandle (m : Machine) : StopHandle :=
  ⟨m.switch⟩

/-- A request to stop the run, made through a handle. It takes down the flag of the handle, which
    is this machine's or another one. -/
def stopBy (m : Machine) (h : StopHandle) : Machine :=
  { m with running := m.running && h.switch != m.switch }

/-- Whether the machine is in a run, as one sees through a handle. -/
def isRunning (m : Machine) (h : StopHandle) : Bool :=
  m.running && h.switch == m.switch

/-- Steps until something ends the run, and why it ended; nothing if that takes more steps than
    given. -/
def go {σ : Type} (trip : Tripwire σ) :
    Nat → σ → Machine → Option (Machine × σ × Except Fault Pause)
  | 0, _, _ => none
  | steps + 1, s, m =>
      if !m.running then some (m, s, .ok .stopped)
      else
        let (verdict, s) := trip s m
        let m := if verdict.stop then m.stop else m
        if !verdict.goOn then some (m, s, .ok .tripwire)
        else
          match m.execute with
          | (m, .halted) => some (m, s, .ok .halt)
          | (m, .faulted f) => some (m, s, .error f)
          | (m, .ran) =>
              if m.atBreakpoint then some (m, s, .ok .breakpoint) else go trip steps s m

/-- The machine made ready for a run. -/
def prepare (m : Machine) : Machine :=
  { m with journal := m.journal.clear, pause := none, running := true }

/-- The machine after a run that ended for a reason. A fault is no reason to pause, so after one
    no pause is noted. -/
def finish (m : Machine) (reason : Except Fault Pause) : Machine × Except Fault Unit :=
  let m := publish { m with running := false }
  match reason with
  | .ok pause => ({ m with pause := some pause }, .ok ())
  | .error f => (m, .error f)

/-- Runs the machine under a tripwire, which starts in a given state. -/
def runUnder {σ : Type} (trip : Tripwire σ) (steps : Nat) (s : σ) (m : Machine) :
    Option (Machine × σ × Except Fault Unit) :=
  (go trip steps s m.prepare).map fun (m, s, reason) =>
    let (m, result) := m.finish reason
    (m, s, result)

/-- The run without its tripwire. -/
def run (steps : Nat) (m : Machine) : Option (Machine × Except Fault Unit) :=
  (runUnder (fun (_ : Unit) _ => (⟨true, false⟩, ())) steps () m).map fun (m, _, result) =>
    (m, result)

/-- The run of at most `n` instructions, counted as the machine counts them. -/
def runAtMost (n : UInt64) (m : Machine) : Option (Machine × Except Fault Unit) :=
  let first := m.executed
  let trip : Tripwire Unit := fun _ m => (⟨m.executed - first < n, false⟩, ())
  (runUnder trip (n.toNat + 1) () m).map fun (m, _, result) => (m, result)

end DecimalMachine.Machine
