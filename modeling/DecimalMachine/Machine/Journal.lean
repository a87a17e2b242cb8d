import DecimalMachine.Cell
import Std.Data.TreeSet

set_option autoImplicit false

/-! # The journal

The journal records which cells changed during the last execution and whether the registers did.
It also delivers events to subscribers: each has an inbox, numbered in the order of subscription,
which takes every event sent from then on until the subscriber leaves. -/

namespace DecimalMachine

/-- What a subscriber is told. -/
inductive Event
  /-- These cells may have changed. -/
  | memoryChanged (cells : List Nat)
  /-- The registers may have changed; these are their values now. -/
  | registersChanged (acu : Cell) (pc : Nat)
  /-- Other labels are in force. -/
  | labelsChanged
  deriving DecidableEq, Repr

/-- The recorded changes, and the inboxes; of a subscriber that has left nothing is kept. -/
structure Journal where
  changed : Std.TreeSet Nat := ∅
  registers : Bool := false
  inboxes : List (Option (List Event)) := []

namespace Journal

/-! ## Recording -/

/-- The cells recorded, in ascending order. -/
def changes (j : Journal) : List Nat := j.changed.toList

/-- Whether a cell is recorded. -/
def hasChanged (j : Journal) (a : Nat) : Bool := j.changed.contains a

/-- Records a cell. -/
def recordCell (j : Journal) (a : Nat) : Journal :=
  { j with changed := j.changed.insert a }

/-- Records the registers. -/
def recordRegisters (j : Journal) : Journal :=
  { j with registers := true }

/-- Forgets what is recorded; the inboxes stay as they are. -/
def clear (j : Journal) : Journal :=
  { j with changed := ∅, registers := false }

theorem changes_clear (j : Journal) : j.clear.changes = [] := by
  rfl

theorem inboxes_clear (j : Journal) : j.clear.inboxes = j.inboxes := by
  rfl

/-! ## Delivering -/

/-- A new subscriber, with an empty inbox. -/
def subscribe (j : Journal) : Journal :=
  { j with inboxes := j.inboxes ++ [some []] }

/-- The subscriber of a number leaves. -/
def leave (j : Journal) (i : Nat) : Journal :=
  { j with inboxes := j.inboxes.set i none }

/-- Puts an event into every inbox. -/
def notify (j : Journal) (e : Event) : Journal :=
  { j with inboxes := j.inboxes.map (·.map (· ++ [e])) }

/-- Puts events into every inbox, one after the other. -/
def notifyAll (j : Journal) (es : List Event) : Journal :=
  es.foldl notify j

theorem changed_notifyAll (j : Journal) (es : List Event) :
    (j.notifyAll es).changed = j.changed := by
  induction es generalizing j with
  | nil => rfl
  | cons e es ih => exact ih (j.notify e)

theorem registers_notifyAll (j : Journal) (es : List Event) :
    (j.notifyAll es).registers = j.registers := by
  induction es generalizing j with
  | nil => rfl
  | cons e es ih => exact ih (j.notify e)

/-- Takes out what the inboxes hold. -/
def collect (j : Journal) : List (Option (List Event)) × Journal :=
  (j.inboxes, { j with inboxes := j.inboxes.map (·.map fun _ => []) })

/-! ## Publishing -/

/-- The event of some cells having changed, unless there are none. -/
def memoryEvent (cells : List Nat) : List Event :=
  if cells.isEmpty then [] else [.memoryChanged cells]

/-- The events that tell what is recorded, given the values of the registers now. -/
def recorded (j : Journal) (acu : Cell) (pc : Nat) : List Event :=
  memoryEvent j.changes ++ if j.registers then [.registersChanged acu pc] else []

/-- Tells every subscriber what is recorded. -/
def publish (j : Journal) (acu : Cell) (pc : Nat) : Journal :=
  j.notifyAll (j.recorded acu pc)

end Journal

end DecimalMachine
