import DecimalMachine.Assembly.Object
import DecimalMachine.Machine.Breakpoint
import DecimalMachine.Machine.Fill
import DecimalMachine.Machine.Journal

set_option autoImplicit false

/-! # The machine

The core with all that surrounds it: how far execution has come, the symbols of the loaded
program, the journal, and the settings of its user. This module holds what is done to a machine
that is not running; every change that its user did not make by hand is told to the subscribers. -/

namespace DecimalMachine

/-! ## Types -/

/-- How far execution has come. -/
inductive Status
  /-- Nothing has been executed since the program was set to its start. -/
  | ready
  /-- Something has been executed, and more can be. -/
  | running
  /-- A halt has been executed. -/
  | halted
  /-- The next instruction cannot be executed. -/
  | faulted (fault : Fault)
  deriving DecidableEq, Repr

/-- Why a run ended without a fault. -/
inductive Pause
  /-- A halt was executed. -/
  | halt
  /-- The run was stopped. -/
  | stopped
  /-- A breakpoint held. -/
  | breakpoint
  /-- The tripwire ended the run. -/
  | tripwire
  deriving DecidableEq, Repr

/-- The settings from which memory is made. -/
structure Flags where
  capacity : Nat := 1000
  fill : Fill := .known 0
  deriving DecidableEq, Repr

/-- The name of a flag, by which it is known from all others. A machine shares its flag with the
    handles that were taken of it. -/
abbrev Switch := Nat

/-- A handle, which can be kept outside of the machine and has a flag in common with it. -/
structure StopHandle where
  switch : Switch
  deriving DecidableEq, Repr

/-- The machine. `executed` counts instructions modulo `2 ^ 64`, `pause` says why the last run
    ended, and `running` is the flag named `switch`: it is up during a run until someone asks to
    stop it. -/
structure Machine where
  core : Core
  status : Status := .ready
  start : Nat := 0
  symbols : Symbols := .empty
  executed : UInt64 := 0
  pause : Option Pause := none
  journal : Journal := {}
  switch : Switch := 0
  running : Bool := false
  flags : Flags
  breakpoints : List Breakpoint := []

namespace Machine

/-! ## Making and clearing -/

/-- A machine without a program, with a flag of its own. -/
def new (r : Randomness) (switch : Switch) (flags : Flags) : Machine :=
  { core := { memory := (Memory.create flags.capacity (flags.fill.supply r)).1 }, switch, flags }

theorem size_new (r : Randomness) (switch : Switch) (flags : Flags) :
    (new r switch flags).core.memory.size = flags.capacity :=
  Memory.size_create _ _

/-- Sends events to the subscribers. -/
def tell (m : Machine) (es : List Event) : Machine :=
  { m with journal := m.journal.notifyAll es }

/-- The event that tells the registers. -/
def registersEvent (m : Machine) : Event :=
  .registersChanged m.core.acu m.core.pc

/-- A new machine with the same flags, breakpoints and subscribers, in which the flag that the
    handles share takes the place of its own. -/
def reset (m : Machine) (r : Randomness) : Machine :=
  let fresh := new r (m.switch + 1) m.flags
  let kept : Machine :=
    { fresh with
      journal := m.journal.clear, switch := m.switch, running := m.running
      breakpoints := m.breakpoints }
  kept.tell
    [.memoryChanged (List.range kept.core.memory.size), kept.registersEvent, .labelsChanged]

/-- The program set to its start. Memory is left as it is. -/
def rewind (m : Machine) : Machine :=
  let m :=
    { m with
      core := ⟨m.core.memory, 0, m.start⟩
      status := .ready
      executed := 0
      pause := none
      journal := m.journal.clear }
  m.tell [m.registersEvent]

/-- The accumulator set to 0. -/
def clearRegisters (m : Machine) : Machine :=
  let m := { m with core := { m.core with acu := 0 } }
  m.tell [m.registersEvent]

/-! ## Memory and programs -/

/-- Loads a program and sets it to its start. Nothing is done if a cell of it lies outside of
    memory. -/
def load (m : Machine) (o : Object) : Except Fault Machine :=
  if m.core.memory.size < o.extent then .error (.outside (o.extent - 1))
  else
    let (memory, changed) := m.core.memory.storeAll o.cells
    let m := { m with core := { m.core with memory }, start := o.start, symbols := o.symbols }
    .ok (m.rewind.tell (Journal.memoryEvent changed ++ [.labelsChanged]))

/-- Sets the first cells of memory. Nothing is done if there are more values than cells. -/
def setMemory (m : Machine) (values : List Cell) : Except Fault Machine :=
  if m.core.memory.size < values.length then .error (.outside (values.length - 1))
  else
    let (memory, changed) := m.core.memory.storeAll (values.zipIdx.map fun (v, a) => (a, v))
    let m := { m with core := { m.core with memory } }
    .ok (m.tell (Journal.memoryEvent changed))

/-- Cuts or extends memory, now and for the next reset. -/
def resize (m : Machine) (r : Randomness) (capacity : Nat) : Machine :=
  let size := m.core.memory.size
  let memory := (m.core.memory.resize capacity (m.flags.fill.supply r)).1
  let m :=
    { m with core := { m.core with memory }, flags := { m.flags with capacity } }
  m.tell (Journal.memoryEvent (List.range' size (capacity - size)))

/-- Makes the cell of a line the start of the program and sets the program to it, if the line was
    assembled to a cell. -/
def startAtLine? (m : Machine) (line : Nat) : Option (Machine × Nat) :=
  (m.symbols.lineAddress? line).map fun a => (rewind { m with start := a }, a)

/-- The line of the instruction at the instruction pointer. -/
def currentLine? (m : Machine) : Option Nat :=
  m.symbols.lineAt? m.core.pc

/-- The registers by name. -/
def registers (m : Machine) : List (String × Cell) :=
  [("ACU", m.core.acu)]

/-! ## Breakpoints and subscribers -/

/-- Adds a breakpoint, and whether it is new. -/
def addBreakpoint (m : Machine) (b : Breakpoint) : Machine × Bool :=
  if b ∈ m.breakpoints then (m, false)
  else ({ m with breakpoints := b :: m.breakpoints }, true)

/-- Removes a breakpoint, and whether it was there. -/
def removeBreakpoint (m : Machine) (b : Breakpoint) : Machine × Bool :=
  if b ∈ m.breakpoints then ({ m with breakpoints := m.breakpoints.erase b }, true)
  else (m, false)

/-- Removes all breakpoints. -/
def clearBreakpoints (m : Machine) : Machine :=
  { m with breakpoints := [] }

/-- Whether any breakpoint holds. -/
def atBreakpoint (m : Machine) : Bool :=
  m.breakpoints.any (·.holds m.core)

/-- A new subscriber to the events of the machine. -/
def subscribe (m : Machine) : Machine :=
  { m with journal := m.journal.subscribe }

/-- The subscriber of a number leaves. -/
def leave (m : Machine) (i : Nat) : Machine :=
  { m with journal := m.journal.leave i }

end Machine

end DecimalMachine
