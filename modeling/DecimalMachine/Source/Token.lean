import DecimalMachine.Cell
import DecimalMachine.Text.Letter

set_option autoImplicit false

/-! # Tokens

A word of source can be an integer (`-14`) or the definition of a label (`LOOP:`). The scanner
takes the longest token at the start of a text; a word counts as a token only if that token is
all of it. An integer starts with a sign or a digit and a label with a letter or an underscore,
so at most one of the two can start at any place. -/

namespace DecimalMachine

/-- What a word of source can be, taken alone. -/
inductive Token
  /-- A signed decimal numeral whose value fits a cell. -/
  | int (value : Cell)
  /-- A label to be defined, without the colon after it. -/
  | label (name : String)
  deriving DecidableEq, Repr

/-- Why no token starts a text. -/
inductive Token.Misfit
  /-- A numeral is there, but its value fits no cell. -/
  | doesNotFit
  /-- Neither a numeral nor a label is there. -/
  | invalidSymbol
  deriving DecidableEq, Repr

/-- What is wrong, in a few words. -/
def Token.Misfit.message : Token.Misfit → String
  | doesNotFit => "integer literal does not fit in a cell"
  | invalidSymbol => "unrecognized symbol"

namespace Token

/-! ## Labels -/

/-- The characters that may start a label. -/
def isLabelStart (c : Char) : Bool :=
  Text.isLetter c || c == '_'

/-- The characters that may go on a label. -/
def isLabelPart (c : Char) : Bool :=
  Text.isLetter c || Text.isNumber c || c == '_'

/-- The label with its colon at the start of a text, and the rest of the text. -/
def scanLabel? : List Char → Option (String × List Char)
  | [] => none
  | c :: cs =>
      if isLabelStart c then
        match cs.dropWhile isLabelPart with
        | ':' :: rest => some (String.ofList (c :: cs.takeWhile isLabelPart), rest)
        | _ => none
      else none

/-! ## Scanning -/

/-- The longest token at the start of a text, and the rest of the text. -/
def scan (cs : List Char) : Except Misfit (Token × List Char) :=
  match Text.Numeral.scan? cs with
  | some (n, rest) =>
      match Cell.ofInt? n with
      | some v => .ok (.int v, rest)
      | none => .error .doesNotFit
  | none =>
      match scanLabel? cs with
      | some (name, rest) => .ok (.label name, rest)
      | none => .error .invalidSymbol

/-- The token at the start of a word, whatever follows it; the empty word has none. -/
def first? (w : String) : Option (Except Misfit Token) :=
  if w.toList.isEmpty then none else some ((scan w.toList).map Prod.fst)

/-- The token that a word is as a whole. -/
def classify (w : String) : Option Token :=
  match scan w.toList with
  | .ok (t, []) => some t
  | _ => none

/-- The value of a word that is an integer as a whole. -/
def int? (w : String) : Option Cell :=
  match classify w with
  | some (.int v) => some v
  | _ => none

/-- The name of a word that is the definition of a label as a whole. -/
def label? (w : String) : Option String :=
  match classify w with
  | some (.label name) => some name
  | _ => none

/-- The address that a word names: a number that is not negative. -/
def address? (w : String) : Option Nat :=
  (int? w).bind Cell.address?

end Token

end DecimalMachine
