import DecimalMachine.Text.Numeral

set_option autoImplicit false

/-! # Defects of a source text

What can be wrong with a line of source, and the wording of it. Assembly never stops at a defect:
it lists each one as a finding with the number of its line and goes on. -/

namespace DecimalMachine

/-- What can be wrong with a line of source. -/
inductive Defect
  /-- The mnemonic names no instruction. -/
  | unknownMnemonic
  /-- The instruction cannot take an operand in this mode. -/
  | invalidMode
  /-- The operand is neither a number nor a known label. -/
  | malformedOperand
  /-- A cell index or a directive's argument is not a non-negative number. -/
  | malformedAddress
  /-- The directive is neither `.data` nor `.code`. -/
  | unknownDirective
  /-- An instruction other than `HLT` stands without an operand. -/
  | missingOperand
  /-- The line holds more than three words. -/
  | unexpectedWord
  /-- The label was defined before, at another cell. -/
  | overlappingLabel
  deriving DecidableEq, Repr

namespace Defect

/-- What is wrong, in a few words. -/
def message : Defect → String
  | unknownMnemonic => "unknown mnemonic"
  | invalidMode => "instruction does not support this addressing mode"
  | malformedOperand => "operand is not a number or a known label"
  | malformedAddress => "expected a non-negative cell index"
  | unknownDirective => "unknown directive"
  | missingOperand => "instruction is missing an operand"
  | unexpectedWord => "too many words on one line"
  | overlappingLabel => "label was defined multiple times"

/-- How to mend it. -/
def help : Defect → String
  | unknownMnemonic =>
      "valid mnemonics are HLT, INC, DEC, CPA, STO, ADD, SUB, BRA, BRN, MUL, and BRZ"
  | invalidMode => "INC and DEC can only take direct (5) or indirect ([5]) operands"
  | malformedOperand =>
      "operands are decimal numbers or labels, " ++
        "optionally written as $n (immediate) or [n] (indirect)"
  | malformedAddress => "cell indices must be non-negative decimal numbers"
  | unknownDirective => "the available directives are .data and .code"
  | missingOperand => "only HLT can be written without an operand"
  | unexpectedWord => "a line holds at most a label or cell, a mnemonic, and an operand"
  | overlappingLabel => "labels must be unique within a file, try renaming one of the labels"

end Defect

/-- A defect on a line, counted from 1. -/
structure Finding where
  defect : Defect
  line : Nat
  deriving DecidableEq, Repr

namespace Finding

/-- The first finding of a list in full, and how many more there are. -/
def summary : List Finding → String
  | [] => "no errors"
  | [f] => head f
  | f :: rest => head f ++ " (and " ++ Text.Numeral.text rest.length ++ " more errors)"
where
  /-- One finding with its line. -/
  head (f : Finding) : String :=
    "line " ++ Text.Numeral.text f.line ++ ": " ++ f.defect.message

end Finding

end DecimalMachine
