import DecimalMachine.Instr.Format
import DecimalMachine.Source.Stmt

set_option autoImplicit false

/-! # What a statement emits

A statement emits cells that follow one another, and defects. What it emits depends on the labels
known at its place, and on whether its instruction is to take two cells in any case, but not on
where it stands. -/

namespace DecimalMachine

/-- The cells that labels are known to name. -/
abbrev Lookup := String → Option Nat

/-! ## Operand words -/

namespace Operand

/-- The mode in which an operand is written. -/
def writtenMode (word : String) : Mode :=
  if word.toList.contains '$' then .immediate
  else if word.toList.contains '[' then .indirect
  else .direct

/-- An operand without the characters that spell its mode. -/
def bare (word : String) : String :=
  String.ofList (word.toList.filter fun c => c != '$' && c != '[' && c != ']')

/-- The number or the cell of a label that an operand names, once it is bare. -/
def value? (known : Lookup) (word : String) : Option Cell :=
  (Token.int? (bare word)).or ((known (bare word)).map Cell.ofAddress)

/-- The operand that a word names. A word that is a label as it stands names the cell of that
    label; any other is a number or a label, in the mode it is written in. -/
def resolve? (known : Lookup) (word : String) : Option Operand :=
  match known word with
  | some a => some ⟨.direct, Cell.ofAddress a⟩
  | none => (value? known word).map fun v => ⟨writtenMode word, v⟩

/-- The operand that stands in for a word that names none. -/
def standIn (word : String) : Operand :=
  ⟨writtenMode word, 0⟩

end Operand

/-! ## Emissions -/

/-- What a statement emits. -/
structure Emission where
  cells : List Cell := []
  defects : List Defect := []

namespace Emission

/-- The emission of a defect and nothing else. -/
def ofDefect (d : Defect) : Emission := { defects := [d] }

/-- The emission of one cell. -/
def ofCell (v : Cell) : Emission := { cells := [v] }

/-- Whether an instruction took two cells. -/
def isWide (e : Emission) : Bool := e.cells.length == 2

end Emission

/-- The defect of a word that stands where only `HLT` can. -/
def notHalt (word : String) : List Defect :=
  match Opcode.ofWord? word with
  | some .hlt => []
  | some _ => [.missingOperand]
  | none => [.unknownMnemonic]

/-- What an instruction emits. A word that names no operand is assembled as 0. -/
def emitInstr (known : Lookup) (wide : Bool) (mnemonic operand : String) : Emission :=
  match Opcode.ofWord? mnemonic with
  | none => .ofDefect .unknownMnemonic
  | some .hlt => .ofCell haltWord
  | some op =>
      let found := Operand.resolve? known operand
      let i : Instr := ⟨op, some (found.getD (Operand.standIn operand))⟩
      let malformed := if found.isNone then [Defect.malformedOperand] else []
      match i.encodeFrom (if wide then .wide else .packed) with
      | .ok e => { cells := e.words, defects := malformed }
      | .error d => { defects := malformed ++ [d] }

/-! ## Directives -/

/-- The directives: each moves a cursor. -/
inductive Directive
  /-- Data goes on at a cell. -/
  | data
  /-- Code goes on at a cell, and the program starts there. -/
  | code
  deriving DecidableEq, Repr

/-- The directive of a name, in upper or lower case. -/
def Directive.ofName? (name : String) : Option Directive :=
  let name := Text.lower name
  if name = "data" then some .data else if name = "code" then some .code else none

/-! ## Statements -/

namespace Stmt

/-- What a word without an operand emits. Under a label it is assembled as a halt, whatever it
    says. -/
def emitWord (place : Option Place) (w : String) : Emission :=
  let isHalt := Opcode.ofWord? w == some .hlt
  let isLabeled := place matches some (.label _)
  { cells := if isHalt || isLabeled then [haltWord] else [], defects := notHalt w }

/-- What an item emits at a place. -/
def emitItem (known : Lookup) (wide : Bool) (place : Option Place) : Item → Emission
  | .value v => .ofCell v
  | .word w => emitWord place w
  | .instr mnemonic operand => emitInstr known wide mnemonic operand

/-- Whether a place names no cell although it should. -/
def isMisplaced : Option Place → Bool
  | some (.cell w) => (Token.address? w).isNone
  | _ => false

/-- What a statement emits. -/
def emit (known : Lookup) (wide : Bool) : Stmt → Emission
  | blank => {}
  | label => {}
  | directive name argument =>
      if (Directive.ofName? name).isNone then .ofDefect .unknownDirective
      else if (Token.address? argument).isNone then .ofDefect .malformedAddress
      else {}
  | put place item =>
      if isMisplaced place then .ofDefect .malformedAddress else emitItem known wide place item
  | overlong _ => .ofDefect .unexpectedWord

end Stmt

end DecimalMachine
