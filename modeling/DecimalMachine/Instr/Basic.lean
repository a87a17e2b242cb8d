import DecimalMachine.Cell
import DecimalMachine.Text.Upper

set_option autoImplicit false

/-! # Instructions

An instruction is an opcode with at most one operand; `HLT` alone stands without one. An operand
is a number read in one of three modes, each with its own spelling: `$5` is the number itself,
`5` the cell at that address, `[5]` the cell whose address stands in that cell. -/

namespace DecimalMachine

/-! ## Opcodes -/

/-- What an instruction does. -/
inductive Opcode
  /-- Stop. -/
  | hlt
  /-- Add one to a cell. -/
  | inc
  /-- Take one from a cell. -/
  | dec
  /-- Copy the operand into the accumulator. -/
  | cpa
  /-- Store the accumulator into a cell. -/
  | sto
  /-- Add the operand to the accumulator. -/
  | add
  /-- Subtract the operand from the accumulator. -/
  | sub
  /-- Branch. -/
  | bra
  /-- Branch if the accumulator is negative. -/
  | brn
  /-- Multiply the accumulator by the operand. -/
  | mul
  /-- Branch if the accumulator is zero. -/
  | brz
  deriving DecidableEq, Repr

namespace Opcode

/-- All opcodes. -/
def all : List Opcode := [hlt, inc, dec, cpa, sto, add, sub, bra, brn, mul, brz]

theorem mem_all (op : Opcode) : op ∈ all := by
  cases op <;> decide

/-- The mnemonic of an opcode. -/
def mnemonic : Opcode → String
  | hlt => "HLT"
  | inc => "INC"
  | dec => "DEC"
  | cpa => "CPA"
  | sto => "STO"
  | add => "ADD"
  | sub => "SUB"
  | bra => "BRA"
  | brn => "BRN"
  | mul => "MUL"
  | brz => "BRZ"

/-- The place of an opcode among the eight whose words are spaced evenly by it. -/
def family? : Opcode → Option Nat
  | hlt | inc | dec => none
  | cpa => some 0
  | sto => some 1
  | add => some 2
  | sub => some 3
  | bra => some 4
  | brn => some 5
  | mul => some 6
  | brz => some 7

/-- Whether an opcode takes an operand. -/
def takesOperand (op : Opcode) : Bool :=
  op != hlt

/-- Whether an opcode reads its operand as the address to go on from. -/
def isBranch : Opcode → Bool
  | bra | brn | brz => true
  | _ => false

/-- The opcode that a word names as a mnemonic, in upper or lower case. -/
def ofWord? (w : String) : Option Opcode :=
  all.find? (·.mnemonic == Text.upper w)

theorem ofWord?_mnemonic (op : Opcode) : ofWord? op.mnemonic = some op := by
  cases op <;> decide +kernel

end Opcode

/-! ## Operands -/

/-- How the number in an operand is read. -/
inductive Mode
  /-- The number itself, written `$5`. -/
  | immediate
  /-- The cell whose address stands in the cell at that address, written `[5]`. -/
  | indirect
  /-- The cell at that address, written `5`. -/
  | direct
  deriving DecidableEq, Repr

namespace Mode

/-- All modes. -/
def all : List Mode := [immediate, indirect, direct]

theorem mem_all (m : Mode) : m ∈ all := by
  cases m <;> decide

end Mode

/-- A number with the mode in which it is read. -/
structure Operand where
  mode : Mode
  value : Cell
  deriving DecidableEq, Repr

/-- The spelling of an operand. -/
def Operand.text (x : Operand) : String :=
  match x.mode with
  | .immediate => "$" ++ x.value.text
  | .indirect => "[" ++ x.value.text ++ "]"
  | .direct => x.value.text

/-! ## Instructions -/

/-- An opcode with its operand. -/
structure Instr where
  op : Opcode
  operand : Option Operand
  deriving DecidableEq, Repr

namespace Instr

/-- The instruction that stops the machine. -/
def halt : Instr := ⟨.hlt, none⟩

/-- The spelling of an instruction. -/
def text (i : Instr) : String :=
  match i.operand with
  | none => i.op.mnemonic
  | some x => i.op.mnemonic ++ " " ++ x.text

end Instr

/-- How many cells an instruction takes. -/
inductive Width
  /-- One cell, which holds the operand too. -/
  | packed
  /-- Two cells, of which the second holds the operand. -/
  | wide
  deriving DecidableEq, Repr

/-- The number of cells of a width. -/
def Width.cells : Width → Nat
  | .packed => 1
  | .wide => 2

end DecimalMachine
