import DecimalMachine.Proofs.Assembly.Settling

set_option autoImplicit false

/-! # Solutions as plans

A pass that starts with some labels and finds the same labels again is a solution of the equations
between the labels and the widths of instructions. Within the pass an operand sees the labels as
far as they are bound, and beyond that the labels that the pass started with. But where no label is
defined twice, these are the same in a solution, so that every operand sees all labels as they are
in the end, and the pass goes by a plan (`Cursors.plan`), for which nothing is carried from line to
line but the cursors. Conversely, labels are a solution if they are where their plan puts them
(`Lookup.solves_iff`). -/

namespace DecimalMachine

/-! ## Plans -/

/-- What becomes of a statement, whatever the number of its line: the cell it stands at, what it
    writes and its defects. -/
structure Placed where
  stmt : Stmt
  site? : Option Nat
  writes : List (Nat × Cell)
  defects : List Defect
  deriving DecidableEq, Repr

/-- The cell that a statement in its place binds a label to, if it binds it. -/
def Placed.binds? (p : Placed) (name : String) : Option Nat :=
  if p.stmt.defines? = some name then p.site? else none

/-- What became of the statement of an entry. -/
def Entry.placed (e : Entry) : Placed :=
  ⟨e.line.stmt, e.site?, e.writes, e.defects⟩

/-- What becomes of a statement that sees the labels of a lookup. -/
def Stmt.placed (k : Lookup) (cur : Cursors) (s : Stmt) : Placed :=
  let e := s.emit k false
  { stmt := s
    site? := s.site? cur
    writes := (e.cells.zipIdx ((s.site? cur).getD 0)).map fun (v, a) => (a, v)
    defects := e.defects }

namespace Cursors

/-- The cursors after a statement that sees the labels of a lookup. -/
def past (k : Lookup) (cur : Cursors) (s : Stmt) : Cursors :=
  cur.after s (s.emit k false).cells.length

/-- The cursors after some statements. -/
def through (k : Lookup) (cur : Cursors) (ss : List Stmt) : Cursors :=
  ss.foldl (past k) cur

/-- What becomes of some statements if all of them see the same labels. -/
def plan (k : Lookup) : Cursors → List Stmt → List Placed
  | _, [] => []
  | cur, s :: rest => s.placed k cur :: plan k (cur.past k s) rest

variable {k : Lookup} {cur : Cursors}

theorem plan_append (ss rest : List Stmt) :
    cur.plan k (ss ++ rest) = cur.plan k ss ++ (cur.through k ss).plan k rest := by
  induction ss generalizing cur with
  | nil => rfl
  | cons s ss ih => exact congrArg (s.placed k cur :: ·) ih

end Cursors

/-! ## Labels that are known -/

namespace Lookup

/-- The labels known on the right are known on the left, and are the same there. -/
def Extends (k k' : Lookup) : Prop :=
  ∀ name a, k' name = some a → k name = some a

/-- The labels that statements in their places bind are known, and are there. -/
def Holds (k : Lookup) (ps : List Placed) : Prop :=
  ∀ p ∈ ps, k.Extends p.binds?

theorem holds_cons {k : Lookup} {p : Placed} {ps : List Placed} :
    k.Holds (p :: ps) ↔ k.Extends p.binds? ∧ k.Holds ps := by
  exact List.forall_mem_cons

end Lookup

namespace Layout

variable {k : Lookup} {lay : Layout} {line : Line}

theorem extends_bind (hlay : k.Extends lay.address?)
    (hline : k.Extends (line.stmt.placed k lay.cursors).binds?) :
    k.Extends (lay.bind line).address? := by
  intro name a ha
  rw [address?_bind] at ha
  by_cases hd : line.stmt.defines? = some name
  · exact hline name a ((if_pos hd).trans ((if_pos hd).symm.trans ha))
  · exact hlay name a ((if_neg hd).symm.trans ha)

theorem seen_of_extends (h : k.Extends (lay.bind line).address?) : lay.seen k line = k := by
  funext name
  rw [seen, known_apply]
  cases ha : (lay.bind line).address? name with
  | none => rfl
  | some a => exact (h name a ha).symm

theorem clash_eq_nil (hlay : k.Extends lay.address?)
    (hline : k.Extends (line.stmt.placed k lay.cursors).binds?) : lay.clash line = [] := by
  unfold clash
  split
  · rename_i name a hd ha
    have hk : k name = some a := hline name a ((if_pos hd).trans ha)
    cases hb : lay.labels[name]? with
    | none => rfl
    | some b =>
        have hkb : k name = some b.address := hlay name b.address (by rw [address?, hb]; rfl)
        obtain rfl : b.address = a := Option.some.inj (hkb.symm.trans hk)
        simp
  · rfl

/-- What a line binds does not depend on the labels that its operand sees. -/
theorem binds?_step (before : Lookup) :
    (lay.step before line).1.placed.binds? = (line.stmt.placed k lay.cursors).binds? := by
  funext name
  simp only [Placed.binds?, Entry.placed, Stmt.placed, step_fst]
  rfl

/-- Where all labels bound are where a lookup says, a step that starts with that lookup goes by
    plan. -/
theorem step_of_extends (hnarrow : line.wide = false) (hlay : k.Extends lay.address?)
    (hline : k.Extends (line.stmt.placed k lay.cursors).binds?) :
    (lay.step k line).1.placed = line.stmt.placed k lay.cursors ∧
      (lay.step k line).2.cursors = lay.cursors.past k line.stmt ∧
      k.Extends (lay.step k line).2.address? := by
  have hbind := extends_bind hlay hline
  have hemission : lay.emission k line = line.stmt.emit k false := by
    rw [emission, seen_of_extends hbind, hnarrow]
  refine ⟨?_, ?_, hbind⟩
  · rw [step_fst, hemission, clash_eq_nil hlay hline]
    rfl
  · change lay.cursors.after line.stmt (lay.emission k line).cells.length = _
    rw [hemission]
    rfl

end Layout

namespace Pass

variable {k : Lookup} {lay : Layout} {lines : List Line}

/-- A pass goes by plan if its labels are where the lookup says, or if those of the plan are. -/
theorem placed_runFrom (hnarrow : ∀ line ∈ lines, line.wide = false)
    (hlay : k.Extends lay.address?)
    (h : k.Holds ((runFrom k lay lines).entries.map Entry.placed) ∨
      k.Holds (lay.cursors.plan k (lines.map (·.stmt)))) :
    (runFrom k lay lines).entries.map Entry.placed = lay.cursors.plan k (lines.map (·.stmt)) ∧
      (runFrom k lay lines).layout.cursors = lay.cursors.through k (lines.map (·.stmt)) ∧
      k.Extends (runFrom k lay lines).layout.address? := by
  -- along the lines all labels bound so far stay where the lookup says
  induction lines generalizing lay with
  | nil => exact ⟨rfl, rfl, hlay⟩
  | cons line rest ih =>
      -- either way the line binds its label to its site, in the pass as in the plan
      have hline : k.Extends (line.stmt.placed k lay.cursors).binds? := by
        rcases h with h | h
        · have hhead : k.Extends (lay.step k line).1.placed.binds? := (Lookup.holds_cons.1 h).1
          rwa [Layout.binds?_step] at hhead
        · exact (Lookup.holds_cons.1 h).1
      obtain ⟨hplaced, hcursors, hextends⟩ :=
        Layout.step_of_extends (hnarrow line List.mem_cons_self) hlay hline
      have hrest := ih (fun l hl => hnarrow l (List.mem_cons_of_mem _ hl)) hextends (by
        rw [hcursors]
        exact h.imp (fun h => (Lookup.holds_cons.1 h).2) (fun h => (Lookup.holds_cons.1 h).2))
      rw [hcursors] at hrest
      obtain ⟨hentries, hend, hlast⟩ := hrest
      refine ⟨?_, hend, hlast⟩
      simp only [runFrom, List.map_cons, hplaced, hentries]
      rfl

end Pass

/-! ## Solutions -/

theorem eq_of_nodup_filterMap {α β : Type} {f : α → Option β} {l : List α}
    (h : (l.filterMap f).Nodup) {x y : α} (hx : x ∈ l) (hy : y ∈ l) {b : β} (hfx : f x = some b)
    (hfy : f y = some b) : x = y := by
  induction l with
  | nil => exact absurd hx List.not_mem_nil
  | cons z l ih =>
      have hhead : ∀ w ∈ l, f w = some b → f z ≠ some b := by
        intro w hw hfw hfz
        rw [List.filterMap_cons_some hfz] at h
        exact (List.nodup_cons.1 h).1 (List.mem_filterMap.2 ⟨w, hw, hfw⟩)
      rcases List.mem_cons.1 hx with hxz | hxl
      · rcases List.mem_cons.1 hy with hyz | hyl
        · exact hxz.trans hyz.symm
        · exact absurd (hxz ▸ hfx) (hhead y hyl hfy)
      · rcases List.mem_cons.1 hy with hyz | hyl
        · exact absurd (hyz ▸ hfy) (hhead x hxl hfx)
        · exact ih (h.sublist ((List.sublist_cons_self z l).filterMap f)) hxl hyl

theorem Entry.defines?_of_binds? {e : Entry} {name : String} {a : Nat}
    (h : e.binds? name = some a) : e.line.stmt.defines? = some name := by
  unfold binds? at h
  split at h
  · assumption
  · exact absurd h (by simp)

/-- A program that goes by plan: no instruction is kept wide before the first pass, and no label
    is defined twice. -/
structure IsPlannable (program : List Line) : Prop where
  narrow : ∀ line ∈ program, line.wide = false
  once : ((program.map (·.stmt)).filterMap Stmt.defines?).Nodup

/-- Where labels are defined once, what an entry binds is what is found in the end. -/
theorem Pass.address?_of_binds? {k : Lookup} {program : List Line} (h : IsPlannable program)
    {e : Entry} (he : e ∈ (run k program).entries) {name : String} {a : Nat}
    (ha : e.binds? name = some a) : (run k program).symbols.address? name = some a := by
  have hentries : (run k program).entries.filterMap (·.line.stmt.defines?) =
      (program.map (·.stmt)).filterMap Stmt.defines? := by
    rw [← map_lines_runFrom k {} (fun _ s => s) program, ← run, lines, List.map_map,
      List.filterMap_map]
    rfl
  have hlast : (run k program).symbols.address? name =
      (run k program).entries.reverse.findSome? (·.binds? name) := by
    have hwalk := address?_walk k {} program name
    rw [Layout.address?_empty, Option.or_none, ← layout_runFrom] at hwalk
    exact hwalk
  have hsome : ((run k program).entries.reverse.findSome? (·.binds? name)).isSome := by
    exact List.findSome?_isSome_iff.2 ⟨e, List.mem_reverse.2 he, by rw [ha]; rfl⟩
  obtain ⟨b, hb⟩ := Option.isSome_iff_exists.1 hsome
  obtain ⟨e', he', hb'⟩ := List.exists_of_findSome?_eq_some hb
  -- the entry found last defines the label too, so it is this one
  obtain rfl : e' = e := by
    refine eq_of_nodup_filterMap (hentries ▸ h.once) (List.mem_reverse.1 he') he
      (Entry.defines?_of_binds? hb') (Entry.defines?_of_binds? ha)
  rw [hlast, hb, ← hb', ha]

namespace Lookup

/-- The labels of a lookup are a solution for a program: a pass that starts with them finds them
    again. -/
def Solves (k : Lookup) (program : List Line) : Prop :=
  (Pass.run k program).symbols.address? = k

variable {k : Lookup} {program : List Line}

theorem Solves.holds (h : k.Solves program) (hprogram : IsPlannable program) :
    k.Holds ((Pass.run k program).entries.map Entry.placed) := by
  intro p hp name a ha
  obtain ⟨e, he, rfl⟩ := List.mem_map.1 hp
  exact (congrFun h name).symm.trans (Pass.address?_of_binds? hprogram he ha)

/-- A solution goes by plan. -/
theorem Solves.placed (h : k.Solves program) (hprogram : IsPlannable program) :
    (Pass.run k program).entries.map Entry.placed =
        ({} : Cursors).plan k (program.map (·.stmt)) ∧
      (Pass.run k program).layout.cursors = ({} : Cursors).through k (program.map (·.stmt)) := by
  obtain ⟨hplaced, hcursors, -⟩ :=
    @Pass.placed_runFrom k {} program hprogram.narrow nofun (.inl (h.holds hprogram))
  exact ⟨hplaced, hcursors⟩

/-- The labels of a solution are those that the program defines, where the plan puts them. -/
theorem solves_iff (hprogram : IsPlannable program) :
    k.Solves program ↔
      k.Holds (({} : Cursors).plan k (program.map (·.stmt))) ∧
        ∀ name, (k name).isSome = (program.map (·.stmt)).any (·.defines? = some name) := by
  have hdefined : ∀ name, ((Pass.run k program).symbols.address? name).isSome =
      (program.map (·.stmt)).any (·.defines? = some name) := by
    intro name
    rw [Pass.isSome_address?_run, List.any_map]
    rfl
  constructor
  · intro h
    refine ⟨(h.placed hprogram).1 ▸ h.holds hprogram, ?_⟩
    intro name
    rw [← hdefined, show (Pass.run k program).symbols.address? = k from h]
  · rintro ⟨hholds, hnames⟩
    obtain ⟨-, -, hextends⟩ :=
      @Pass.placed_runFrom k {} program hprogram.narrow nofun (.inr hholds)
    funext name
    cases ha : (Pass.run k program).symbols.address? name with
    | some a => exact (hextends name a ha).symm
    | none =>
        -- a label that is not bound in the end is defined by no line, and so it is not known
        have hnone := hdefined name
        rw [ha, ← hnames] at hnone
        exact (Option.isNone_iff_eq_none.1 (by simpa using hnone.symm)).symm

end Lookup

end DecimalMachine
