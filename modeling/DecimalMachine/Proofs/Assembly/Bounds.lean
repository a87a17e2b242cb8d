import DecimalMachine.Proofs.Assembly.Extent

set_option autoImplicit false

/-! # Addresses in 64 bits

Addresses are natural numbers here, though a machine has 64 bits for each. That makes no difference
to a text of fewer than `2 ^ 62` lines. A line can name no address from `2 ^ 31` on, and it moves a
cursor past two cells at most, so after `n` lines nothing stands above `2 ^ 31 - 1 + 2 * n`
(`Layout.AtMost.walk`), and this holds in every pass, whatever labels are known
(`Pass.staysWithin_run`).

Next to the pass stands one that works out its sums in 64 bits and gives up where one does not fit
(`Pass.runFrom?`). Within the bounds it never does (`Pass.nth?_eq_some`). -/

namespace DecimalMachine

/-! ## Sums -/

/-- A sum in 64 bits, if it fits. -/
def sum64? (a b : Nat) : Option Nat :=
  if a + b < 2 ^ 64 then some (a + b) else none

theorem sum64?_of_lt {a b : Nat} (h : a + b < 2 ^ 64) : sum64? a b = some (a + b) :=
  if_pos h

/-! ## Bounds -/

namespace Cursors

/-- The start of the program is where it was, or at an address that a directive names. -/
theorem start_after_le {cur : Cursors} {b : Nat} (hstart : cur.start ≤ b) (hb : 0x7fffffff ≤ b)
    (s : Stmt) (count : Nat) : (cur.after s count).start ≤ b := by
  cases s with
  | directive name argument =>
      simp only [after, afterDirective]
      split
      · exact hstart
      · rename_i a _ ha
        exact Nat.le_trans (Token.address?_le ha) hb
      · exact hstart
  | put place item =>
      simp only [after]
      cases (Stmt.put place item).site? cur with
      | none => exact hstart
      | some a =>
          cases item with
          | value v => exact hstart
          | instr mnemonic word => exact hstart
          | word w =>
              simp only [afterItem]
              split <;> exact hstart
  | _ => exact hstart

end Cursors

namespace Layout

/-- Nothing in a layout stands above a bound. -/
structure AtMost (lay : Layout) (b : Nat) : Prop where
  code : lay.cursors.code ≤ b
  data : lay.cursors.data ≤ b
  start : lay.cursors.start ≤ b
  labels : ∀ name a, lay.address? name = some a → a ≤ b

theorem atMost_empty (b : Nat) : ({} : Layout).AtMost b := by
  refine ⟨Nat.zero_le b, Nat.zero_le b, Nat.zero_le b, ?_⟩
  intro name a ha
  rw [address?_empty] at ha
  exact absurd ha (by simp)

variable {lay : Layout} {line : Line} {b : Nat}

theorem AtMost.mono (h : lay.AtMost b) {b' : Nat} (hle : b ≤ b') : lay.AtMost b' :=
  ⟨Nat.le_trans h.code hle, Nat.le_trans h.data hle, Nat.le_trans h.start hle,
    fun name a ha => Nat.le_trans (h.labels name a ha) hle⟩

theorem AtMost.site_le (h : lay.AtMost b) (hb : 0x7fffffff ≤ b) {a : Nat}
    (ha : line.stmt.site? lay.cursors = some a) : a ≤ b :=
  Cursors.site?_le h.code h.data hb ha

theorem length_emission_le (before : Lookup) (lay : Layout) (line : Line) :
    (lay.emission before line).cells.length ≤ 2 :=
  Stmt.length_cells_emit_le (lay.seen before line) line.wide line.stmt

/-- A line takes everything up by two at most, or to an address that it names. -/
theorem AtMost.step (h : lay.AtMost b) (hb : 0x7fffffff ≤ b) (before : Lookup) (line : Line) :
    (lay.step before line).2.AtMost (b + 2) := by
  have hcount := length_emission_le before lay line
  obtain ⟨hcode, hdata⟩ := Cursors.after_le (s := line.stmt) h.code h.data hb
    (lay.emission before line).cells.length
  have hstart := Cursors.start_after_le h.start hb line.stmt
    (lay.emission before line).cells.length
  refine ⟨Nat.le_trans hcode (by omega), Nat.le_trans hdata (by omega),
    Nat.le_trans hstart (by omega), ?_⟩
  intro name a ha
  rw [address?_step, address?_bind] at ha
  split at ha
  · exact Nat.le_add_right_of_le (h.site_le hb ha)
  · exact Nat.le_add_right_of_le (h.labels name a ha)

theorem AtMost.walk (h : lay.AtMost b) (hb : 0x7fffffff ≤ b) (before : Lookup)
    (lines : List Line) : (lay.walk before lines).AtMost (b + 2 * lines.length) := by
  induction lines generalizing lay b with
  | nil => exact h
  | cons line rest ih =>
      have hrest := ih (h.step hb before line) (by omega)
      rw [walk_cons, List.length_cons]
      exact hrest.mono (by omega)

/-- What a line writes stands in the two cells from its site on. -/
theorem AtMost.lt_of_mem_writes (h : lay.AtMost b) (hb : 0x7fffffff ≤ b) {before : Lookup}
    {w : Nat × Cell} (hw : w ∈ (lay.step before line).1.writes) : w.1 < b + 2 := by
  have hcount := length_emission_le before lay line
  have hsite : (line.stmt.site? lay.cursors).getD 0 ≤ b :=
    Cursors.getD_site?_le h.code h.data hb
  rw [step_fst] at hw
  obtain ⟨⟨v, a⟩, hmem, rfl⟩ := List.mem_map.1 hw
  have hlt : a < _ + _ := List.snd_lt_add_of_mem_zipIdx hmem
  exact Nat.lt_of_lt_of_le hlt (Nat.add_le_add hsite hcount)

end Layout

namespace Pass

/-- In the course of a pass nothing stands above a bound: neither the cursors nor the start of the
    program nor a label, in front of any line or at the end; and no line is mapped to a cell above
    it, and no cell above it is written. -/
structure StaysWithin (before : Lookup) (lines : List Line) (b : Nat) : Prop where
  layout : ∀ i, (Layout.walk before {} (lines.take i)).AtMost b
  mapped : ∀ p ∈ (run before lines).symbols.lines, p.2 ≤ b
  writes : ∀ w ∈ (run before lines).object.writes, w.1 ≤ b

section Bounds

variable {before : Lookup} {lines : List Line}

/-- An entry is one step from a layout within the bounds of the lines before it. -/
theorem exists_step_of_mem_entries {e : Entry} (he : e ∈ (run before lines).entries) :
    ∃ (lay : Layout) (line : Line) (b : Nat), lay.AtMost b ∧ 0x7fffffff ≤ b ∧
      b + 2 ≤ 0x7fffffff + 2 * lines.length ∧ e = (lay.step before line).1 := by
  obtain ⟨i, hi⟩ := List.mem_iff_getElem?.1 he
  rw [run, getElem?_entries_runFrom] at hi
  obtain ⟨line, hline, rfl⟩ := Option.map_eq_some_iff.1 hi
  have hlt := (List.getElem?_eq_some_iff.1 hline).1
  have hwalk := (Layout.atMost_empty 0x7fffffff).walk (Nat.le_refl _) before (lines.take i)
  rw [List.length_take_of_le (Nat.le_of_lt hlt)] at hwalk
  exact ⟨_, line, _, hwalk, by omega, by omega, rfl⟩

theorem staysWithin_run (before : Lookup) (lines : List Line) :
    StaysWithin before lines (0x7fffffff + 2 * lines.length) := by
  constructor
  · intro i
    have hwalk := (Layout.atMost_empty 0x7fffffff).walk (Nat.le_refl _) before (lines.take i)
    have hlength : (lines.take i).length ≤ lines.length := List.length_take_le' i lines
    exact hwalk.mono (by omega)
  · intro p hp
    obtain ⟨e, he, hmapping⟩ := List.mem_filterMap.1 hp
    obtain ⟨lay, line, b, hlay, hb, hle, rfl⟩ := exists_step_of_mem_entries he
    unfold Entry.mapping? at hmapping
    split at hmapping
    · obtain ⟨a, ha, rfl⟩ := Option.map_eq_some_iff.1 hmapping
      have hsite := hlay.site_le hb ha
      dsimp only
      omega
    · exact absurd hmapping (by simp)
  · intro w hw
    obtain ⟨e, he, hw⟩ := List.mem_flatMap.1 hw
    obtain ⟨lay, line, b, hlay, hb, hle, rfl⟩ := exists_step_of_mem_entries he
    have hlt := hlay.lt_of_mem_writes hb hw
    omega

end Bounds

end Pass

/-! ## Passes that check their sums -/

namespace Cursors

/-- The cursors after an item, if their sums fit. -/
def afterItem? (cur : Cursors) (a count : Nat) : Item → Option Cursors
  | .value _ => (sum64? a count).map fun data => { cur with data }
  | .word _ => if count = 0 then some cur else (sum64? a count).map fun code => { cur with code }
  | .instr _ _ => (sum64? a count).map fun code => { cur with code }

/-- The cursors after a statement, if their sums fit. -/
def after? (cur : Cursors) (s : Stmt) (count : Nat) : Option Cursors :=
  match s, s.site? cur with
  | .directive name argument, _ => some (cur.afterDirective name argument)
  | .put _ item, some a => cur.afterItem? a count item
  | _, _ => some cur

theorem after?_eq_some (cur : Cursors) (s : Stmt) (count : Nat)
    (h : ∀ a, s.site? cur = some a → a + count < 2 ^ 64) :
    cur.after? s count = some (cur.after s count) := by
  cases s with
  | put place item =>
      cases ha : (Stmt.put place item).site? cur with
      | none => simp only [after?, after, ha]
      | some a =>
          have hsum := sum64?_of_lt (h a ha)
          cases item with
          | value v => simp only [after?, after, afterItem?, afterItem, ha, hsum, Option.map_some]
          | instr mnemonic word =>
              simp only [after?, after, afterItem?, afterItem, ha, hsum, Option.map_some]
          | word w =>
              simp only [after?, after, afterItem?, afterItem, ha, hsum, Option.map_some]
              split <;> rfl
  | _ => rfl

end Cursors

/-- Cells with the addresses at which they are written, each the sum of an address and the number of
    the cell, if these sums fit. -/
def writesFrom? (a : Nat) : Nat → List Cell → Option (List (Nat × Cell))
  | _, [] => some []
  | i, v :: rest => do
      let b ← sum64? a i
      let writes ← writesFrom? a (i + 1) rest
      return (b, v) :: writes

theorem writesFrom?_eq_some {a i : Nat} {cells : List Cell}
    (h : a + i + cells.length ≤ 2 ^ 64) :
    writesFrom? a i cells = some ((cells.zipIdx (a + i)).map fun (v, b) => (b, v)) := by
  induction cells generalizing i with
  | nil => rfl
  | cons v rest ih =>
      rw [List.length_cons] at h
      rw [writesFrom?, sum64?_of_lt (by omega), ih (by omega)]
      rfl

namespace Layout

/-- One line of a pass, if its sums fit: those for the addresses that it writes to, and those for
    the cursors after it. -/
def step? (before : Lookup) (lay : Layout) (line : Line) : Option (Entry × Layout) := do
  -- the rest of a step looks up and compares addresses, but it adds nothing to them
  let (entry, next) := lay.step before line
  let cells := (lay.emission before line).cells
  let writes ← writesFrom? ((line.stmt.site? lay.cursors).getD 0) 0 cells
  let cursors ← lay.cursors.after? line.stmt cells.length
  return ({ entry with writes }, { next with cursors })

theorem AtMost.step?_eq_some {before : Lookup} {lay : Layout} {line : Line} {b : Nat}
    (h : lay.AtMost b) (hb : 0x7fffffff ≤ b) (hroom : b + 2 < 2 ^ 64) :
    lay.step? before line = some (lay.step before line) := by
  have hcount := length_emission_le before lay line
  have hsite : (line.stmt.site? lay.cursors).getD 0 ≤ b :=
    Cursors.getD_site?_le h.code h.data hb
  have hwrites : writesFrom? ((line.stmt.site? lay.cursors).getD 0) 0
      (lay.emission before line).cells = some (lay.step before line).1.writes :=
    writesFrom?_eq_some (by omega)
  have hcursors := lay.cursors.after?_eq_some line.stmt (lay.emission before line).cells.length
    fun a ha => by
      have hle := h.site_le hb ha
      omega
  simp only [step?, hwrites, hcursors]
  rfl

end Layout

namespace Pass

/-- The pass over some lines from a layout on, if its sums fit. -/
def runFrom? (before : Lookup) (lay : Layout) : List Line → Option Pass
  | [] => some ⟨[], lay⟩
  | line :: rest => do
      let (entry, lay) ← lay.step? before line
      let p ← runFrom? before lay rest
      return ⟨entry :: p.entries, p.layout⟩

theorem runFrom?_eq_some {before : Lookup} {lay : Layout} {lines : List Line} {b : Nat}
    (h : lay.AtMost b) (hb : 0x7fffffff ≤ b) (hroom : b + 2 * lines.length < 2 ^ 64) :
    runFrom? before lay lines = some (runFrom before lay lines) := by
  induction lines generalizing lay b with
  | nil => rfl
  | cons line rest ih =>
      rw [List.length_cons] at hroom
      have hrest := ih (h.step hb before line) (by omega) (by omega)
      simp only [runFrom?, h.step?_eq_some hb (by omega), Option.bind_eq_bind, Option.bind_some,
        hrest, runFrom]
      rfl

variable (program : List Line)

/-- A pass over a program after so many others, if the sums of all of them fit. -/
def nth? : Nat → Option Pass
  | 0 => runFrom? (fun _ => none) {} program
  | k + 1 => do
      let p ← nth? k
      runFrom? p.symbols.address? {} p.lines

variable {program}

theorem length_linesBefore (k : Nat) : (linesBefore program k).length = program.length := by
  simpa using congrArg List.length (map_linesBefore program (fun _ s => s) k)

theorem nth?_eq_some (hroom : 0x7fffffff + 2 * program.length < 2 ^ 64) (k : Nat) :
    nth? program k = some (nth program k) := by
  have hrun : ∀ k, runFrom? (knownBefore program k) {} (linesBefore program k) =
      some (nth program k) := by
    intro k
    rw [nth_eq_run]
    refine runFrom?_eq_some (Layout.atMost_empty 0x7fffffff) (Nat.le_refl _) ?_
    rwa [length_linesBefore]
  induction k with
  | zero => exact hrun 0
  | succ k ih =>
      rw [nth?, ih]
      exact hrun (k + 1)

end Pass

/-- The extent of an object file, if its sums fit. -/
def Object.extent? (o : Object) : Option Nat :=
  o.writes.foldlM (fun n (a, _) => (sum64? a 1).map (max n)) 0

theorem Object.extent?_eq_some {o : Object} (h : ∀ w ∈ o.writes, w.1 + 1 < 2 ^ 64) :
    o.extent? = some o.extent := by
  unfold extent? extent
  generalize 0 = n
  generalize o.writes = ws at h
  induction ws generalizing n with
  | nil => rfl
  | cons w rest ih =>
      have hw := sum64?_of_lt (h w List.mem_cons_self)
      simp only [List.foldlM_cons, hw, Option.map_some]
      exact ih (max n (w.1 + 1)) fun w hw => h w (List.mem_cons_of_mem _ hw)

/-! ## Texts -/

namespace Source

theorem length_program_eq_length_lines (source : String) :
    (program source).length = (Text.lines source).length := by
  rw [length_program, statements, List.length_map, length_lines]

/-- However many passes are made over a text of `n` lines, nothing in them stands above
    `2 ^ 31 - 1 + 2 * n`. -/
theorem staysWithin (source : String) (k : Nat) :
    Pass.StaysWithin (Pass.knownBefore (program source) k) (Pass.linesBefore (program source) k)
      (0x7fffffff + 2 * (Text.lines source).length) := by
  rw [← length_program_eq_length_lines, ← Pass.length_linesBefore k]
  exact Pass.staysWithin_run _ _

theorem nth?_program_eq_some {source : String} (h : (Text.lines source).length < 2 ^ 62)
    (k : Nat) : Pass.nth? (program source) k = some (Pass.nth (program source) k) := by
  refine Pass.nth?_eq_some ?_ k
  rw [length_program_eq_length_lines]
  omega

theorem extent?_program_eq_some {source : String} (h : (Text.lines source).length < 2 ^ 62)
    (k : Nat) : (Pass.nth (program source) k).object.extent? =
      some (Pass.nth (program source) k).object.extent := by
  refine Object.extent?_eq_some ?_
  intro w hw
  rw [Pass.nth_eq_run] at hw
  have hle := (staysWithin source k).writes w hw
  omega

end Source

end DecimalMachine
