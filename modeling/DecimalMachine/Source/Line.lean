import DecimalMachine.Source.Token
import DecimalMachine.Text.Blank

set_option autoImplicit false

/-! # Lines of source

A line counts as the words in front of its first semicolon. A line that is a label and nothing
else labels what follows: it is put in front of the next line. If that line was blank, it now is
the label alone and hands it on, so a label reaches over any number of blank lines. The lines
keep their number: each line of the source gives exactly one. -/

namespace DecimalMachine.Source

/-- The words of a line as written, without the comment. -/
def written (cs : List Char) : List String :=
  Text.words (cs.takeWhile (· != ';'))

/-- Whether the words of a line are a label and nothing else. -/
def isLoneLabel : List String → Bool
  | [w] => (Token.label? w).isSome
  | _ => false

/-- The lines with every lone label put in front of the next line; the first line follows the
    words carried to it. -/
def carry (carried : List String) : List (List String) → List (List String)
  | [] => []
  | ws :: rest =>
      let line := carried ++ ws
      line :: carry (if isLoneLabel line then line else []) rest

theorem length_carry (carried : List String) (ls : List (List String)) :
    (carry carried ls).length = ls.length := by
  induction ls generalizing carried with
  | nil => rfl
  | cons ws rest ih => simp [carry, ih]

/-- The words of every line of a source text. -/
def lines (source : String) : List (List String) :=
  carry [] ((Text.lines source).map written)

theorem length_lines (source : String) : (lines source).length = (Text.lines source).length := by
  simp [lines, length_carry]

/-- The plain text of a line: its words with single spaces between them. -/
def plain (words : List String) : String :=
  " ".intercalate words

end DecimalMachine.Source
