import DecimalMachine.Cell

set_option autoImplicit false

/-! # Faults

Why the machine cannot go on. An address past the range of a signed 64-bit number is reported as
the greatest such number. -/

namespace DecimalMachine

/-- Why the machine cannot go on. -/
inductive Fault
  /-- An address, possibly a negative one, is not the address of a cell. -/
  | outOfRange (address : Int)
  /-- The cell at the instruction pointer holds no instruction. -/
  | unrecognized (word : Cell)
  deriving DecidableEq, Repr

namespace Fault

/-- The greatest address that a fault can name. -/
def maxAddress : Nat := 0x7fffffffffffffff

/-- The fault of using an address that lies past the end of memory. -/
def outside (a : Nat) : Fault :=
  .outOfRange (min a maxAddress : Nat)

/-- What went wrong, in a few words. -/
def message : Fault → String
  | outOfRange a => "address " ++ Text.Numeral.text a ++ " is outside of memory"
  | unrecognized w => "cell value " ++ w.text ++ " is not a valid instruction"

/-- What to look for in the program. -/
def help : Fault → String
  | outOfRange _ => "increase the memory capacity or check for a missing HLT"
  | unrecognized _ =>
      "execution may have run into data; check for a missing HLT or a bad branch target"

end Fault

end DecimalMachine
