import DecimalMachine.Defect
import DecimalMachine.Fault
import DecimalMachine.Text.Blank

set_option autoImplicit false

/-! # Diagnostics

A defect or a fault as it is shown to the author of a source text: what is wrong, the line in
question, and how to mend it. -/

namespace DecimalMachine

/-- What is shown of a defect or a fault; a fault belongs to no line. -/
structure Diagnostic where
  message : String
  line? : Option Nat
  help : String
  deriving DecidableEq, Repr

/-- The diagnostic of a defect on its line. -/
def Finding.diagnostic (f : Finding) : Diagnostic :=
  ⟨f.defect.message, some f.line, f.defect.help⟩

/-- The diagnostic of a fault. -/
def Fault.diagnostic (f : Fault) : Diagnostic :=
  ⟨f.message, none, f.help⟩

namespace Diagnostic

/-- The line of a source text that a diagnostic quotes, without the blanks around it. Lines count
    from 1, and what stands after a final line feed is a line only if it holds a character. -/
def quote? (source : String) (line : Nat) : Option String :=
  let pieces := Text.lines source
  match line with
  | 0 => none
  | n + 1 =>
      match pieces[n]? with
      | none => none
      | some [] => if n + 1 = pieces.length then none else some ""
      | some piece => some (String.ofList (Text.trim piece))

/-- A diagnostic in full: the message with its line, the quoted line, and the help. -/
def render (d : Diagnostic) (source : String) : String :=
  head ++ "\n    = help: " ++ d.help
where
  /-- The message, with its line in front and the quoted line below if there is one. -/
  head : String :=
    match d.line? with
    | none => d.message
    | some line =>
        "line " ++ Text.Numeral.text line ++ ": " ++ d.message ++
          match quote? source line with
          | none => ""
          | some quoted => "\n    | " ++ quoted

end Diagnostic

end DecimalMachine
