import DecimalMachine.Assembly.Symbols
import DecimalMachine.Cell

set_option autoImplicit false

/-! # Object files

An assembled program: what to write into which cell, in the order of the source, the cell to start
at, and the symbols. A later write to a cell replaces an earlier one. -/

namespace DecimalMachine

/-- An assembled program. -/
structure Object where
  writes : List (Nat × Cell)
  start : Nat
  symbols : Symbols

namespace Object

/-- The program that writes nothing. -/
def empty : Object := ⟨[], 0, .empty⟩

/-- The last value written to each cell, in the order of the cells. -/
def cells (o : Object) : List (Nat × Cell) :=
  (o.writes.foldl (fun m (a, v) => m.insert a v) (∅ : Std.TreeMap Nat Cell)).toList

/-- The least size of a memory that holds every cell written. -/
def extent (o : Object) : Nat :=
  o.writes.foldl (fun n (a, _) => max n (a + 1)) 0

end Object

end DecimalMachine
