import Std.Data.TreeMap

set_option autoImplicit false

/-! # Symbols

The symbol table of an assembled program says which cell each label names and which cell each line
of the source was assembled to. Both can be read backwards: where several labels name a cell the
least is taken, where several lines were assembled to it the last. -/

namespace DecimalMachine

/-- What is known of a label: the cell it names and the line that defined it. -/
structure Binding where
  address : Nat
  line : Nat
  deriving DecidableEq, Repr

/-- The cells of labels and of lines; the lines ascend. -/
structure Symbols where
  labels : Std.TreeMap String Binding
  lines : List (Nat × Nat)

namespace Symbols

/-- The table without labels and lines. -/
def empty : Symbols := ⟨∅, []⟩

/-- The cell that a label names. -/
def address? (s : Symbols) (label : String) : Option Nat :=
  s.labels[label]?.map (·.address)

/-- The line that defined a label. -/
def definition? (s : Symbols) (label : String) : Option Nat :=
  s.labels[label]?.map (·.line)

/-- The cell that a line was assembled to. -/
def lineAddress? (s : Symbols) (line : Nat) : Option Nat :=
  s.lines.lookup line

/-- The least label that names a cell. -/
def labelAt? (s : Symbols) (address : Nat) : Option String :=
  (s.labels.toList.find? (·.2.address == address)).map (·.1)

/-- The last line that was assembled to a cell. -/
def lineAt? (s : Symbols) (address : Nat) : Option Nat :=
  (s.lines.reverse.find? (·.2 == address)).map (·.1)

/-- The labels with the cells they name, in the order of the labels. -/
def addresses (s : Symbols) : List (String × Nat) :=
  s.labels.toList.map fun (label, b) => (label, b.address)

end Symbols

end DecimalMachine
