import DecimalMachine.Assembly.Emission
import DecimalMachine.Assembly.Object

set_option autoImplicit false

/-! # Passes

A pass walks the lines once with two cursors, one for the next cell of code and one for the next
cell of data. It binds labels to the cells it comes to, and leaves an entry for every line: the
cell the line stands at, what it wrote, and its defects. An operand sees the labels bound so far
in this pass and, for those not bound yet, the cells they had before it. -/

namespace DecimalMachine

/-! ## Cursors -/

/-- Where the next instruction and the next value go, and where the program starts. -/
structure Cursors where
  code : Nat := 0
  data : Nat := 0
  start : Nat := 0
  deriving DecidableEq, Repr

namespace Stmt

/-- The cell that a statement stands at, if it stands anywhere: the cell that the line names, or
    the next free one for data or for code. A lone word that is no halt stands nowhere. -/
def site? (cur : Cursors) : Stmt → Option Nat
  | blank => none
  | label => some cur.code
  | directive _ _ => none
  | put (some (.cell w)) _ => Token.address? w
  | put _ (.value _) => some cur.data
  | put _ (.instr _ _) => some cur.code
  | put (some (.label _)) (.word _) => some cur.code
  | put none (.word w) => if Opcode.ofWord? w = some .hlt then some cur.code else none
  | overlong _ => none

/-- Whether the line of a statement can be found by its cell: all can but those of a value without
    a place. -/
def isMapped : Stmt → Bool
  | put none (.value _) => false
  | _ => true

end Stmt

namespace Cursors

/-- The cursors after a directive. -/
def afterDirective (cur : Cursors) (name argument : String) : Cursors :=
  match Directive.ofName? name, Token.address? argument with
  | some .data, some a => { cur with data := a }
  | some .code, some a => { cur with code := a, start := a }
  | _, _ => cur

/-- The cursors after an item that emitted so many cells from a cell on. A word that emitted
    nothing moves no cursor; an instruction moves the code cursor to its cell even then. -/
def afterItem (cur : Cursors) (a count : Nat) : Item → Cursors
  | .value _ => { cur with data := a + count }
  | .word _ => if count = 0 then cur else { cur with code := a + count }
  | .instr _ _ => { cur with code := a + count }

/-- The cursors after a statement that emitted so many cells. -/
def after (cur : Cursors) (s : Stmt) (count : Nat) : Cursors :=
  match s, s.site? cur with
  | .directive name argument, _ => cur.afterDirective name argument
  | .put _ item, some a => cur.afterItem a count item
  | _, _ => cur

end Cursors

/-! ## Lines and entries -/

/-- A line of a program: its number, what it says, and whether its instruction has ever needed two
    cells. -/
structure Line where
  number : Nat
  stmt : Stmt
  wide : Bool := false
  deriving DecidableEq, Repr

/-- What a pass made of a line. -/
structure Entry where
  line : Line
  site? : Option Nat
  writes : List (Nat × Cell)
  defects : List Defect
  deriving DecidableEq, Repr

namespace Entry

/-- The number of the line with its cell, if the line can be found by it. -/
def mapping? (e : Entry) : Option (Nat × Nat) :=
  if e.line.stmt.isMapped then e.site?.map fun a => (e.line.number, a) else none

/-- The defects with the number of the line. -/
def findings (e : Entry) : List Finding :=
  e.defects.map fun d => ⟨d, e.line.number⟩

end Entry

/-! ## One pass -/

/-- What a pass carries from line to line. -/
structure Layout where
  cursors : Cursors := {}
  labels : Std.TreeMap String Binding := ∅

namespace Layout

/-- The cell of a label, as bound so far or else as it was before. -/
def known (lay : Layout) (before : Lookup) : Lookup := fun name =>
  (lay.labels[name]?.map (·.address)).or (before name)

/-- The layout with the label of a line bound to its cell. -/
def bind (lay : Layout) (line : Line) : Layout :=
  match line.stmt.defines?, line.stmt.site? lay.cursors with
  | some name, some a => { lay with labels := lay.labels.insert name ⟨a, line.number⟩ }
  | _, _ => lay

/-- The defect of a line whose label is bound to another cell already. -/
def clash (lay : Layout) (line : Line) : List Defect :=
  match line.stmt.defines?, line.stmt.site? lay.cursors with
  | some name, some a =>
      if lay.labels[name]?.any (·.address != a) then [.overlappingLabel] else []
  | _, _ => []

/-- One line of a pass: its entry, and the layout for the next line. -/
def step (before : Lookup) (lay : Layout) (line : Line) : Entry × Layout :=
  let site := line.stmt.site? lay.cursors
  let clash := lay.clash line
  let bound := lay.bind line
  let e := line.stmt.emit (bound.known before) line.wide
  let entry : Entry :=
    { line := { line with wide := line.wide || e.isWide }
      site? := site
      writes := (e.cells.zipIdx (site.getD 0)).map fun (v, a) => (a, v)
      defects := clash ++ e.defects }
  (entry, { bound with cursors := lay.cursors.after line.stmt e.cells.length })

end Layout

/-- The outcome of a pass. -/
structure Pass where
  entries : List Entry
  layout : Layout

namespace Pass

/-- The pass over some lines from a layout on. -/
def runFrom (before : Lookup) (lay : Layout) : List Line → Pass
  | [] => ⟨[], lay⟩
  | line :: rest =>
      let (entry, lay) := lay.step before line
      let p := runFrom before lay rest
      ⟨entry :: p.entries, p.layout⟩

/-- The pass over a program, with the cells that labels had before it. -/
def run (before : Lookup) (program : List Line) : Pass :=
  runFrom before {} program

/-- The lines of the program, wide where an instruction has ever needed two cells. -/
def lines (p : Pass) : List Line := p.entries.map (·.line)

/-- The symbols that a pass found. -/
def symbols (p : Pass) : Symbols :=
  ⟨p.layout.labels, p.entries.filterMap Entry.mapping?⟩

/-- The object file that a pass wrote. -/
def object (p : Pass) : Object :=
  ⟨p.entries.flatMap (·.writes), p.layout.cursors.start, p.symbols⟩

/-- The findings of a pass, in the order of the lines. -/
def findings (p : Pass) : List Finding := p.entries.flatMap Entry.findings

end Pass

end DecimalMachine
