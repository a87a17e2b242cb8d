import DecimalMachine.Source.Line

set_option autoImplicit false

/-! # Statements

What a line of source says. Most lines put an item somewhere: a value, a lone mnemonic or an
instruction with its operand, each at the next free cell, at the next free cell with a label for
it, or at a cell that the line names. The number of words and the form of the first of them decide
which it is; whether an address, a mnemonic or an operand makes sense is left to assembly. -/

namespace DecimalMachine

/-! ## Types -/

/-- Where a line says that its item is to stand. -/
inductive Place
  /-- At the next free cell, which the label then names. -/
  | label (name : String)
  /-- At the cell that the word names. -/
  | cell (word : String)
  deriving DecidableEq, Repr

/-- What a line puts into memory. -/
inductive Item
  /-- A value. -/
  | value (v : Cell)
  /-- A word that is no number and stands without an operand, such as `HLT`. -/
  | word (w : String)
  /-- An instruction with an operand, such as `ADD $3`. -/
  | instr (mnemonic operand : String)
  deriving DecidableEq, Repr

/-- What a line of source says. -/
inductive Stmt
  /-- Nothing. -/
  | blank
  /-- A label for what follows. -/
  | label
  /-- A directive with its argument, such as `.data 50`; the name is without the dot. -/
  | directive (name argument : String)
  /-- An item, with its place if the line gives one. -/
  | put (place : Option Place) (item : Item)
  /-- More words than a statement can have. -/
  | overlong (count : Nat)
  deriving DecidableEq, Repr

/-! ## Reading a line -/

/-- The item of a word without an operand. -/
def Item.ofWord (w : String) : Item :=
  match Token.int? w with
  | some v => .value v
  | none => .word w

namespace Stmt

/-- A word without the colon at its end, if it has one there. Any such word is taken for a label,
    be it spelled like one or not. -/
def uncolon? (w : String) : Option String :=
  match w.toList.reverse with
  | ':' :: name => some (String.ofList name.reverse)
  | _ => none

/-- A word without the dot at its start, if it has one there. -/
def undot? (w : String) : Option String :=
  match w.toList with
  | '.' :: name => some (String.ofList name)
  | _ => none

/-- The statement of one word. -/
def ofOne (w : String) : Stmt :=
  if (Token.int? w).isNone && (uncolon? w).isSome then .label else .put none (.ofWord w)

/-- The statement of two words. -/
def ofTwo (first second : String) : Stmt :=
  match undot? first, uncolon? first with
  | some name, _ => .directive name second
  | none, some name => .put (some (.label name)) (.ofWord second)
  | none, none =>
      if (Token.int? first).isSome then .put (some (.cell first)) (.ofWord second)
      else .put none (.instr first second)

/-- The statement of three words. -/
def ofThree (first mnemonic operand : String) : Stmt :=
  match uncolon? first with
  | some name => .put (some (.label name)) (.instr mnemonic operand)
  | none => .put (some (.cell first)) (.instr mnemonic operand)

/-- The statement that the words of a line make. -/
def ofWords : List String → Stmt
  | [] => .blank
  | [w] => ofOne w
  | [first, second] => ofTwo first second
  | [first, mnemonic, operand] => ofThree first mnemonic operand
  | ws => .overlong ws.length

/-- The label that a statement defines, if it defines one. -/
def defines? : Stmt → Option String
  | put (some (.label name)) _ => some name
  | _ => none

/-- Whether a statement is an instruction with an operand. -/
def isInstr : Stmt → Bool
  | put _ (.instr _ _) => true
  | _ => false

end Stmt

/-- The statements of a source text, one for each line. -/
def Source.statements (source : String) : List Stmt :=
  (Source.lines source).map Stmt.ofWords

end DecimalMachine
