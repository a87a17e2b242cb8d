import DecimalMachine.Assembly.Pass
import DecimalMachine.Proofs.Assembly.Emission
import Std.Data.TreeMap.Lemmas

set_option autoImplicit false

/-! # The course of a pass

A pass is a walk: the layout in front of a line is the layout after the lines before it
(`Layout.walk`), and the entry of a line is one step from there. A line that has a label stands
somewhere, so it binds its label in any case; hence which labels are bound after some lines is
settled by the lines alone (`isSome_address?_walk`), and a label is bound to the site of the last
of them that defines it (`address?_walk`). -/

namespace DecimalMachine

/-! ## Sites of labels -/

namespace Stmt

/-- A statement that defines a label stands at one of the two cursors. -/
theorem isSome_site?_of_defines? {s : Stmt} {name : String} (h : s.defines? = some name)
    (cur : Cursors) : (s.site? cur).isSome := by
  cases s with
  | put place item =>
      rcases place with _ | ⟨l⟩ | ⟨w⟩
      · simp [defines?] at h
      · cases item <;> rfl
      · simp [defines?] at h
  | _ => simp [defines?] at h

end Stmt

namespace Layout

variable (before : Lookup) (lay : Layout) (line : Line)

/-! ## Labels bound so far -/

/-- The cell that a label is bound to so far. -/
def address? (lay : Layout) (name : String) : Option Nat :=
  lay.labels[name]?.map (·.address)

theorem known_apply (name : String) :
    lay.known before name = (lay.address? name).or (before name) := by
  rfl

@[simp] theorem address?_empty (name : String) : ({} : Layout).address? name = none := by
  rfl

/-- A line binds the label that it defines to its site, and no other. -/
theorem address?_bind (name : String) :
    (lay.bind line).address? name =
      if line.stmt.defines? = some name then line.stmt.site? lay.cursors
      else lay.address? name := by
  unfold bind address?
  cases hd : line.stmt.defines? with
  | none => simp
  | some l =>
      obtain ⟨a, ha⟩ := Option.isSome_iff_exists.1 (Stmt.isSome_site?_of_defines? hd lay.cursors)
      simp only [ha, Std.TreeMap.getElem?_insert, Std.LawfulEqCmp.compare_eq_iff_eq,
        Option.some.injEq]
      split <;> rfl

theorem address?_step (name : String) :
    (lay.step before line).2.address? name = (lay.bind line).address? name := by
  rfl

/-- The labels that an operand on a line can see: its own label is among them. -/
def seen (before : Lookup) (lay : Layout) (line : Line) : Lookup :=
  (lay.bind line).known before

/-- What the statement of a line emits in its place. -/
def emission (before : Lookup) (lay : Layout) (line : Line) : Emission :=
  line.stmt.emit (lay.seen before line) line.wide

theorem step_fst :
    (lay.step before line).1 =
      { line := { line with wide := line.wide || (lay.emission before line).isWide }
        site? := line.stmt.site? lay.cursors
        writes := ((lay.emission before line).cells.zipIdx
          ((line.stmt.site? lay.cursors).getD 0)).map fun (v, a) => (a, v)
        defects := lay.clash line ++ (lay.emission before line).defects } := by
  rfl

/-- A line that is wide anyway can as well be kept wide. -/
theorem step_wide {before : Lookup} {lay : Layout} {line : Line}
    (h : (lay.emission before line).isWide = true) :
    lay.step before { line with wide := true } = lay.step before line := by
  obtain ⟨number, stmt, wide⟩ := line
  have hemit : stmt.emit (lay.seen before ⟨number, stmt, true⟩) true =
      stmt.emit (lay.seen before ⟨number, stmt, wide⟩) wide :=
    Stmt.emit_true_of_isWide h
  simp only [emission, seen] at h hemit
  simp only [step, hemit, h, Bool.or_true]
  rfl

/-- A step does the same again on the line that it leaves. -/
theorem step_line_step : lay.step before (lay.step before line).1.line = lay.step before line := by
  cases h : (lay.emission before line).isWide with
  | true =>
      have hline : (lay.step before line).1.line = { line with wide := true } := by
        simp [step_fst, h]
      rw [hline]
      exact step_wide h
  | false =>
      have hline : (lay.step before line).1.line = line := by
        simp [step_fst, h]
      rw [hline]

/-! ## Walks -/

/-- The layout after some lines. -/
def walk (before : Lookup) (lay : Layout) (lines : List Line) : Layout :=
  lines.foldl (fun lay line => (lay.step before line).2) lay

@[simp] theorem walk_nil : lay.walk before [] = lay := by
  rfl

@[simp] theorem walk_cons (rest : List Line) :
    lay.walk before (line :: rest) = (lay.step before line).2.walk before rest := by
  rfl

theorem walk_append (lines rest : List Line) :
    lay.walk before (lines ++ rest) = (lay.walk before lines).walk before rest := by
  exact List.foldl_append

theorem isSome_address?_walk (lines : List Line) (name : String) :
    ((lay.walk before lines).address? name).isSome =
      ((lay.address? name).isSome || lines.any (·.stmt.defines? = some name)) := by
  induction lines generalizing lay with
  | nil => simp
  | cons line rest ih =>
      rw [walk_cons, ih, address?_step, address?_bind, List.any_cons]
      by_cases h : line.stmt.defines? = some name
      · simp [h, Stmt.isSome_site?_of_defines? h lay.cursors]
      · simp [h]

/-! ## Labels that stay -/

/-- A label that is bound stays where it is on a line that does not clash with it. -/
theorem address?_step_of_not_mem {name : String} {a : Nat} (ha : lay.address? name = some a)
    (h : Defect.overlappingLabel ∉ (lay.step before line).1.defects) :
    (lay.step before line).2.address? name = some a := by
  rw [address?_step, address?_bind]
  by_cases hd : line.stmt.defines? = some name
  · obtain ⟨b, hb⟩ := Option.isSome_iff_exists.1 (Stmt.isSome_site?_of_defines? hd lay.cursors)
    obtain ⟨old, hold, rfl⟩ := Option.map_eq_some_iff.1 ha
    rw [if_pos hd, hb]
    by_cases hne : old.address = b
    · rw [hne]
    · refine absurd (List.mem_append_left _ ?_) h
      simp [clash, hd, hb, hold, hne]
  · rw [if_neg hd, ha]

end Layout

/-- The cell that an entry binds a label to, if it binds it. -/
def Entry.binds? (e : Entry) (name : String) : Option Nat :=
  if e.line.stmt.defines? = some name then e.site? else none

/-- What an entry leaves in the table of labels for a label, if it binds it. -/
def Entry.binding? (e : Entry) (name : String) : Option Binding :=
  (e.binds? name).map fun a => ⟨a, e.line.number⟩

theorem Entry.map_binding? (e : Entry) (name : String) :
    (e.binding? name).map (·.address) = e.binds? name := by
  rw [binding?, Option.map_map]
  exact Option.map_id'

/-- A step leaves the table of labels as it was, but for the label that its entry binds. -/
theorem Layout.getElem?_labels_step (before : Lookup) (lay : Layout) (line : Line)
    (name : String) :
    (lay.step before line).2.labels[name]? =
      ((lay.step before line).1.binding? name).or lay.labels[name]? := by
  change (lay.bind line).labels[name]? = _
  unfold bind
  cases hd : line.stmt.defines? with
  | none => simp [Entry.binding?, Entry.binds?, step, hd]
  | some l =>
      obtain ⟨a, ha⟩ := Option.isSome_iff_exists.1 (Stmt.isSome_site?_of_defines? hd lay.cursors)
      simp only [ha, Std.TreeMap.getElem?_insert, Std.LawfulEqCmp.compare_eq_iff_eq,
        Entry.binding?, Entry.binds?, step, hd, Option.some.injEq]
      split <;> rfl

/-- A step leaves the labels as they were, but for the one that its entry binds. -/
theorem Layout.address?_step_eq_or (before : Lookup) (lay : Layout) (line : Line) (name : String) :
    (lay.step before line).2.address? name =
      ((lay.step before line).1.binds? name).or (lay.address? name) := by
  rw [address?, getElem?_labels_step, Option.map_or, Entry.map_binding?]
  rfl

/-- The cell that the line of an entry is found by is the one it stands at. -/
theorem Entry.map_mapping? (e : Entry) :
    e.mapping?.map (·.2) = if e.line.stmt.isMapped then e.site? else none := by
  unfold mapping?
  split
  · cases e.site? <;> rfl
  · rfl

theorem Entry.number_of_mapping? {e : Entry} {p : Nat × Nat} (h : e.mapping? = some p) :
    p.1 = e.line.number := by
  unfold mapping? at h
  split at h
  · obtain ⟨a, -, rfl⟩ := Option.map_eq_some_iff.1 h
    rfl
  · exact absurd h (by simp)

namespace Pass

variable (before : Lookup) (lay : Layout)

/-! ## Entries by position -/

theorem layout_runFrom (lines : List Line) :
    (runFrom before lay lines).layout = lay.walk before lines := by
  induction lines generalizing lay with
  | nil => rfl
  | cons line rest ih => exact ih (lay.step before line).2

theorem entries_runFrom_append (lines rest : List Line) :
    (runFrom before lay (lines ++ rest)).entries =
      (runFrom before lay lines).entries ++
        (runFrom before (lay.walk before lines) rest).entries := by
  induction lines generalizing lay with
  | nil => rfl
  | cons line lines ih => simp [runFrom, ih]

theorem take_entries_runFrom (lay : Layout) (lines : List Line) (n : Nat) :
    (runFrom before lay lines).entries.take n = (runFrom before lay (lines.take n)).entries := by
  induction lines generalizing lay n with
  | nil => simp [runFrom]
  | cons line rest ih =>
      cases n with
      | zero => rfl
      | succ n => simp [runFrom, ih]

/-- The entry of a line is one step from the layout after the lines before it. -/
theorem getElem?_entries_runFrom (lines : List Line) (n : Nat) :
    (runFrom before lay lines).entries[n]? =
      lines[n]?.map fun line => ((lay.walk before (lines.take n)).step before line).1 := by
  induction lines generalizing lay n with
  | nil => rfl
  | cons line rest ih =>
      cases n with
      | zero => rfl
      | succ n => simpa [runFrom] using ih (lay.step before line).2 n

theorem getElem?_lines_of_entry {p : Pass} {n : Nat} {e : Entry} (h : p.entries[n]? = some e) :
    p.lines[n]? = some e.line := by
  rw [lines, List.getElem?_map, h]
  rfl

theorem getElem?_entries_of_eq_run {p : Pass} {before : Lookup} {lines : List Line}
    (hrun : p = run before lines) {n : Nat} {line : Line} (hline : lines[n]? = some line) :
    p.entries[n]? = some ((Layout.walk before {} (lines.take n)).step before line).1 := by
  rw [hrun, run, getElem?_entries_runFrom, hline]
  rfl

/-- A label is bound to the site of the last line that defines it. -/
theorem address?_walk (lines : List Line) (name : String) :
    (lay.walk before lines).address? name =
      ((runFrom before lay lines).entries.reverse.findSome? (·.binds? name)).or
        (lay.address? name) := by
  induction lines generalizing lay with
  | nil => rfl
  | cons line rest ih =>
      rw [Layout.walk_cons, ih, Layout.address?_step_eq_or]
      simp [runFrom, List.findSome?_append, Option.or_assoc]

/-- A label that is bound stays where it is as long as no line clashes with it. -/
theorem address?_walk_of_not_mem (lines : List Line) {name : String} {a : Nat}
    (ha : lay.address? name = some a)
    (h : ∀ e ∈ (runFrom before lay lines).entries, Defect.overlappingLabel ∉ e.defects) :
    (lay.walk before lines).address? name = some a := by
  induction lines generalizing lay with
  | nil => exact ha
  | cons line rest ih =>
      have hhead := Layout.address?_step_of_not_mem before lay line ha (h _ List.mem_cons_self)
      exact ih _ hhead fun e he => h e (List.mem_cons_of_mem _ he)

/-- The lines before a line, the line itself and the lines after it. -/
theorem eq_append_of_getElem? {lines : List Line} {n : Nat} {line : Line}
    (h : lines[n]? = some line) : lines = lines.take n ++ line :: lines.drop (n + 1) := by
  obtain ⟨hn, rfl⟩ := List.getElem?_eq_some_iff.1 h
  rw [List.getElem_cons_drop, List.take_append_drop]

/-- If no label clashes in a pass that works with its own labels, every operand sees the labels as
    they are at its end. -/
theorem seen_eq_of_not_mem {lines : List Line}
    (hfixed : (run before lines).symbols.address? = before)
    (h : ∀ e ∈ (run before lines).entries, Defect.overlappingLabel ∉ e.defects) {n : Nat}
    {line : Line} (hline : lines[n]? = some line) :
    (Layout.walk before {} (lines.take n)).seen before line = before := by
  funext name
  have hsplit := eq_append_of_getElem? hline
  rw [Layout.seen, Layout.known_apply]
  cases ha : ((Layout.walk before {} (lines.take n)).bind line).address? name with
  | none => rfl
  | some a =>
      -- what is bound here is still bound at the end, and what is bound at the end is known before
      have hend := address?_walk_of_not_mem before
        ((Layout.walk before {} (lines.take n)).step before line).2 (lines.drop (n + 1)) ha ?_
      · rw [← Layout.walk_cons, ← Layout.walk_append, ← hsplit, ← layout_runFrom] at hend
        rw [Option.some_or, ← hend]
        exact congrFun hfixed name
      · intro e he
        refine h e ?_
        rw [run, hsplit, entries_runFrom_append]
        exact List.mem_append_right _ (List.mem_cons_of_mem _ he)

/-! ## Lines by number -/

/-- In entries that are numbered one after the other, a line is found by its number. -/
theorem lookup_filterMap_mapping? {es : List Entry} {start : Nat}
    (h : ∀ i e, es[i]? = some e → e.line.number = start + i) (n : Nat) :
    (es.filterMap Entry.mapping?).lookup (start + n) =
      es[n]?.bind fun e => e.mapping?.map (·.2) := by
  induction es generalizing start n with
  | nil => rfl
  | cons e rest ih =>
      have hrest : ∀ i e', rest[i]? = some e' → e'.line.number = start + 1 + i := by
        intro i e' he'
        have := h (i + 1) e' he'
        omega
      have hmapping : ∀ p, e.mapping? = some p → p.1 = start := by
        intro p hp
        rw [Entry.number_of_mapping? hp]
        exact h 0 e rfl
      cases n with
      | zero =>
          -- the number of the first line is not that of a later one
          have hnone : (rest.filterMap Entry.mapping?).lookup start = none := by
            refine List.lookup_eq_none_iff.2 ?_
            intro p hp
            obtain ⟨e', he', hp⟩ := List.mem_filterMap.1 hp
            obtain ⟨i, hi⟩ := List.getElem?_of_mem he'
            rw [Entry.number_of_mapping? hp, hrest i e' hi, bne_iff_ne]
            omega
          cases hm : e.mapping? with
          | none => simpa [hm] using hnone
          | some p =>
              obtain ⟨number, a⟩ := p
              obtain rfl : number = start := hmapping _ hm
              simp [hm]
      | succ n =>
          have hshift : start + (n + 1) = start + 1 + n := by omega
          have hne : ∀ p, e.mapping? = some p → (start + 1 + n == p.1) = false := by
            intro p hp
            rw [hmapping p hp, beq_eq_false_iff_ne]
            omega
          rw [List.getElem?_cons_succ, ← ih hrest n, hshift]
          cases hm : e.mapping? with
          | none => simp [hm]
          | some p =>
              obtain ⟨number, a⟩ := p
              rw [List.filterMap_cons_some hm, List.lookup_cons, hne _ hm]

end Pass

end DecimalMachine
