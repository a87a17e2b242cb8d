import DecimalMachine.Assembly.Pass

set_option autoImplicit false

/-! # Assembly

A label can be used before it is defined, so passes are repeated, each with the cells that the one
before it found, until no label moves. An instruction that once took two cells keeps them, so from
the second pass on a label moves only if another instruction has become wide, and there are only
so many of them: passes beyond that number change nothing. -/

namespace DecimalMachine

/-- The lines of a source text, before any pass. -/
def Source.program (source : String) : List Line :=
  ((Source.statements source).zipIdx 1).map fun (s, n) => { number := n, stmt := s }

namespace Pass

/-- The first pass over a program, when the cell of no label is known. -/
def first (program : List Line) : Pass :=
  run (fun _ => none) program

/-- The pass after this one. -/
def again (p : Pass) : Pass :=
  run p.symbols.address? p.lines

/-- Passes until no label moves, at most `n` more: `before` is where the pass before this one put
    the labels. -/
def settle (before : List (String × Nat)) : Nat → Pass → Pass
  | 0, p => p
  | n + 1, p =>
      if p.symbols.addresses = before then p else settle p.symbols.addresses n p.again

/-- How many passes after the first can be needed: one for every instruction that can become wide,
    one more to learn every label, and one more to see that none moves. -/
def limit (program : List Line) : Nat :=
  program.countP (·.stmt.isInstr) + 2

/-- The pass in which the labels of a program have settled. -/
def settled (program : List Line) : Pass :=
  settle [] (limit program) (first program)

end Pass

/-! ## Results -/

/-- What comes of a source text: the object file, as good as it can be made, and what is wrong
    with the text. -/
structure Assembled where
  object : Object
  findings : List Finding

/-- Assembles a source text. -/
def assemble (source : String) : Assembled :=
  let p := Pass.settled (Source.program source)
  ⟨p.object, p.findings⟩

/-- Assembles a source text that is to have no defects. -/
def assembleClean (source : String) : Except (List Finding) Object :=
  match assemble source with
  | ⟨object, []⟩ => .ok object
  | ⟨_, findings⟩ => .error findings

end DecimalMachine
