import DecimalMachine.Text.Numeral

set_option autoImplicit false

/-! # Cells

A cell of memory holds one 32-bit signed number, which is data, an instruction or an operand,
depending on who reads it. Addresses are natural numbers. -/

namespace DecimalMachine

/-- What one cell of memory holds. -/
abbrev Cell := Int32

namespace Cell

/-- The cell value equal to an integer, if there is one. -/
def ofInt? (n : Int) : Option Cell :=
  if Int32.minValue.toInt ≤ n ∧ n ≤ Int32.maxValue.toInt then some (Int32.ofInt n) else none

/-- The address that a cell value names: itself, unless it is negative. -/
def address? (v : Cell) : Option Nat :=
  if 0 ≤ v.toInt then some v.toInt.toNat else none

/-- The cell value that stands for an address in an operand: the address modulo `2 ^ 32`. -/
def ofAddress (a : Nat) : Cell :=
  Int32.ofNat a

/-- The decimal text of a cell value. -/
def text (v : Cell) : String :=
  Text.Numeral.text v.toInt

end Cell

end DecimalMachine
