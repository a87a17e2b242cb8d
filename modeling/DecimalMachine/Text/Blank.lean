set_option autoImplicit false

/-! # Blanks

A blank is a character with the `White_Space` property. Words of a line are its maximal runs of
characters that are not blank, so the amount and the kind of blank between two words never
matters. -/

namespace DecimalMachine.Text

/-- The characters with the `White_Space` property: 25 of them, a few outside ASCII. -/
def isBlank (c : Char) : Bool :=
  let n := c.toNat
  (9 ≤ n && n ≤ 13) || n == 0x20 || n == 0x85 || n == 0xA0 || n == 0x1680 ||
    (0x2000 ≤ n && n ≤ 0x200A) || n == 0x2028 || n == 0x2029 || n == 0x202F || n == 0x205F ||
    n == 0x3000

/-- The words of a text in order: its maximal runs of characters that are not blank. -/
def words (cs : List Char) : List String :=
  ((cs.splitOnP isBlank).filter (!·.isEmpty)).map String.ofList

/-- A text without the blanks at its two ends. -/
def trim (cs : List Char) : List Char :=
  ((cs.dropWhile isBlank).reverse.dropWhile isBlank).reverse

/-- The lines of a text: its pieces between line feeds. A text without a line feed is one line,
    and so is the empty text. -/
def lines (text : String) : List (List Char) :=
  text.toList.splitOn '\n'

end DecimalMachine.Text
