import DecimalMachine.Machine.Core

set_option autoImplicit false

/-! # Breakpoints

A breakpoint is a condition on the core: where the instruction pointer is, or how the accumulator
or a cell compares with a fixed number. -/

namespace DecimalMachine

/-! ## Comparisons -/

/-- A comparison of a value with a bound. -/
inductive Comparison
  | never
  | lt (bound : Cell)
  | eq (bound : Cell)
  | le (bound : Cell)
  | gt (bound : Cell)
  | ne (bound : Cell)
  | ge (bound : Cell)
  | always
  deriving DecidableEq, Repr

namespace Comparison

/-- Whether a value compares in this way. -/
def holds (c : Comparison) (v : Cell) : Bool :=
  match c with
  | never => false
  | lt b => v < b
  | eq b => v == b
  | le b => v ≤ b
  | gt b => b < v
  | ne b => v != b
  | ge b => b ≤ v
  | always => true

/-- The spelling of a comparison. -/
def text : Comparison → String
  | never => "never"
  | lt b => "< " ++ b.text
  | eq b => "== " ++ b.text
  | le b => "<= " ++ b.text
  | gt b => "> " ++ b.text
  | ne b => "!= " ++ b.text
  | ge b => ">= " ++ b.text
  | always => "always"

end Comparison

/-! ## Breakpoints -/

/-- A condition that pauses a run. -/
inductive Breakpoint
  /-- The instruction pointer is at a cell. -/
  | pc (address : Nat)
  /-- The accumulator compares in a way. -/
  | acu (comparison : Comparison)
  /-- A cell compares in a way; one outside of memory never does. -/
  | cell (address : Nat) (comparison : Comparison)
  deriving DecidableEq, Repr

namespace Breakpoint

/-- Whether the condition holds. -/
def holds (b : Breakpoint) (c : Core) : Bool :=
  match b with
  | pc a => c.pc == a
  | acu cmp => cmp.holds c.acu
  | cell a cmp => c.memory.cells[a]?.any cmp.holds

/-- The spelling of a breakpoint. -/
def text : Breakpoint → String
  | pc a => "Breakpoint(PC == " ++ Text.Numeral.text a ++ ")"
  | acu cmp => "Breakpoint(ACU " ++ cmp.text ++ ")"
  | cell a cmp => "Breakpoint(mem[" ++ Text.Numeral.text a ++ "] " ++ cmp.text ++ ")"

end Breakpoint

end DecimalMachine
