set_option autoImplicit false

/-! # Upper case within ASCII

Mnemonics and directive names are ASCII words read without regard to case. A word is folded with
the full upper-case mapping, under which a few characters outside ASCII also become ASCII letters
(`ſ` gives `S`, the ligature `ﬁ` gives `FI`). Every other character outside ASCII maps to a text
that still holds one outside ASCII, so it stands for itself here: no ASCII word can arise from
it. -/

namespace DecimalMachine.Text

/-- The upper-case form of a character, wherever that form is plain ASCII. -/
def upperChar (c : Char) : List Char :=
  match c with
  | 'ß' => ['S', 'S']
  | 'ı' => ['I']
  | 'ſ' => ['S']
  | 'ﬀ' => ['F', 'F']
  | 'ﬁ' => ['F', 'I']
  | 'ﬂ' => ['F', 'L']
  | 'ﬃ' => ['F', 'F', 'I']
  | 'ﬄ' => ['F', 'F', 'L']
  | 'ﬅ' => ['S', 'T']
  | 'ﬆ' => ['S', 'T']
  | c => [c.toUpper]

/-- The upper-case form of a word, character by character. -/
def upper (w : String) : String :=
  String.ofList (w.toList.flatMap upperChar)

/-- The lower-case form of a word within ASCII. Of the characters outside ASCII only the Kelvin
    sign has an ASCII lower-case form, the letter `k`. -/
def lower (w : String) : String :=
  String.ofList (w.toList.map fun c => if c = '\u212A' then 'k' else c.toLower)

end DecimalMachine.Text
