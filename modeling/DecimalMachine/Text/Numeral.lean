set_option autoImplicit false

/-! # Decimal numerals

An integer is written with a minus sign if it is negative and without leading zeros. It is read
more freely: one sign of either kind or none, and any number of leading zeros. -/

namespace DecimalMachine.Text.Numeral

/-- The digits of an integer, with a minus sign in front of a negative one. -/
def chars (n : Int) : List Char :=
  if n < 0 then '-' :: Nat.toDigits 10 n.natAbs else Nat.toDigits 10 n.natAbs

/-- The decimal text of an integer. -/
def text (n : Int) : String :=
  String.ofList (chars n)

/-- The value of a row of decimal digits. -/
def value (digits : List Char) : Nat :=
  digits.foldl (fun v d => 10 * v + (d.toNat - '0'.toNat)) 0

/-- The longest row of digits at the start of a text, as a value with the rest of the text. -/
def magnitude? (cs : List Char) : Option (Nat × List Char) :=
  let digits := cs.takeWhile Char.isDigit
  if digits.isEmpty then none else some (value digits, cs.dropWhile Char.isDigit)

/-- The longest numeral at the start of a text, as a value with the rest of the text. -/
def scan? : List Char → Option (Int × List Char)
  | '-' :: cs => (magnitude? cs).map fun (n, rest) => (-(n : Int), rest)
  | '+' :: cs => (magnitude? cs).map fun (n, rest) => ((n : Int), rest)
  | cs => (magnitude? cs).map fun (n, rest) => ((n : Int), rest)

end DecimalMachine.Text.Numeral
