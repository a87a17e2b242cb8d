import DecimalMachine.Assembly.Settle
import DecimalMachine.Proofs.Assembly.Walk

set_option autoImplicit false

/-! # Passes settle

Passes are repeated until the cells of the labels are those of the pass before. Nothing in this
bounds their number, and the cells need not move in one direction: in the second pass a word can
turn out to be a label that the first took for a number, and what it emits can then grow or shrink.
From the second pass on, though, the same names are known in every pass, so the layout of a pass
depends only on which of its instructions are wide at its end (`layout_eq_of_lines_eq`). A pass
that moves a label therefore has widened an instruction, and an instruction is widened once.

The settled pass may have widened an instruction and still left all labels where they were. Another
pass changes nothing even then (`run_settled`): what it is to keep wide was wide already. -/

namespace DecimalMachine

/-! ## Addresses of labels -/

namespace Symbols

theorem mem_addresses {s : Symbols} {name : String} {a : Nat} :
    (name, a) ∈ s.addresses ↔ s.address? name = some a := by
  simp only [addresses, address?, List.mem_map, Option.map_eq_some_iff, Prod.mk.injEq]
  constructor
  · rintro ⟨⟨_, b⟩, hmem, rfl, rfl⟩
    exact ⟨b, Std.TreeMap.mem_toList_iff_getElem?_eq_some.1 hmem, rfl⟩
  · rintro ⟨b, hb, rfl⟩
    exact ⟨(name, b), Std.TreeMap.mem_toList_iff_getElem?_eq_some.2 hb, rfl, rfl⟩

/-- The listed addresses decide every look-up. -/
theorem address?_eq_of_addresses_eq {s t : Symbols} (h : s.addresses = t.addresses) :
    s.address? = t.address? := by
  funext name
  refine Option.ext ?_
  intro a
  rw [← mem_addresses, ← mem_addresses, h]

end Symbols

namespace Pass

/-! ## The lines of a pass -/

section Lines

variable (before : Lookup) (lay : Layout)

theorem lines_runFrom_cons (line : Line) (rest : List Line) :
    (runFrom before lay (line :: rest)).lines =
      { line with wide := line.wide || (lay.emission before line).isWide } ::
        (runFrom before (lay.step before line).2 rest).lines := by
  rfl

/-- A pass leaves the numbers and the statements of its lines as they are. -/
theorem map_lines_runFrom {β : Type} (f : Nat → Stmt → β) (lines : List Line) :
    (runFrom before lay lines).lines.map (fun line => f line.number line.stmt) =
      lines.map fun line => f line.number line.stmt := by
  induction lines generalizing lay with
  | nil => rfl
  | cons line rest ih => simp [lines_runFrom_cons, ih]

/-- A pass with the same labels over the lines that a pass has left is that pass again. -/
theorem runFrom_lines (lines : List Line) :
    runFrom before lay (runFrom before lay lines).lines = runFrom before lay lines := by
  induction lines generalizing lay with
  | nil => rfl
  | cons line rest ih =>
      have hstep := lay.step_line_step before line
      rw [Layout.step_fst] at hstep
      rw [lines_runFrom_cons]
      simp only [runFrom]
      rw [hstep, ih]

/-- A pass changes no line, or there are more wide lines after it than before. -/
theorem lines_runFrom_eq_or_lt (lines : List Line) :
    (runFrom before lay lines).lines = lines ∨
      lines.countP (·.wide) < (runFrom before lay lines).lines.countP (·.wide) := by
  induction lines generalizing lay with
  | nil => exact Or.inl rfl
  | cons line rest ih =>
      rw [lines_runFrom_cons, List.countP_cons, List.countP_cons]
      have hrest := ih (lay.step before line).2
      obtain ⟨number, stmt, wide⟩ := line
      cases wide with
      | true =>
          rcases hrest with heq | hlt
          · exact Or.inl (by simp [heq])
          · exact Or.inr (by simpa using hlt)
      | false =>
          cases hw : (lay.emission before ⟨number, stmt, false⟩).isWide with
          | true =>
              rcases hrest with heq | hlt
              · exact Or.inr (by simp [heq])
              · exact Or.inr (by simp; omega)
          | false =>
              rcases hrest with heq | hlt
              · exact Or.inl (by simp [heq])
              · exact Or.inr (by simpa using hlt)

/-- Only instructions are wide after a pass, if only instructions were before it. -/
theorem isInstr_of_wide_runFrom (lines : List Line)
    (h : ∀ line ∈ lines, line.wide = true → line.stmt.isInstr = true) :
    ∀ line ∈ (runFrom before lay lines).lines, line.wide = true → line.stmt.isInstr = true := by
  induction lines generalizing lay with
  | nil => simp [runFrom, Pass.lines]
  | cons line rest ih =>
      intro line' hmem hwide
      rw [lines_runFrom_cons] at hmem
      rcases List.mem_cons.1 hmem with rfl | hmem
      · rcases Bool.or_eq_true_iff.1 hwide with hold | hnew
        · exact h line List.mem_cons_self hold
        · exact Stmt.isInstr_of_isWide_emit hnew
      · exact ih _ (fun l hl => h l (List.mem_cons_of_mem _ hl)) line' hmem hwide

end Lines

/-! ## The layout of a pass -/

/-- The names of the labels after a pass over all lines are those that its lines define. -/
theorem isSome_address?_run (before : Lookup) (lines : List Line) (name : String) :
    ((run before lines).symbols.address? name).isSome =
      lines.any (·.stmt.defines? = some name) := by
  change ((runFrom before {} lines).layout.address? name).isSome = _
  rw [layout_runFrom, Layout.isSome_address?_walk]
  simp

/-- Two passes that leave the same lines leave the same layout, if the instructions have the same
    formats in both: cells enter into an emission only by making it wide. -/
theorem layout_eq_of_sameFormats {before before' : Lookup} (lay : Layout) (lines lines' : List Line)
    (hformats : ∀ (n : Nat) (line : Line), lines[n]? = some line →
      line.stmt.SameFormats ((lay.walk before (lines.take n)).seen before line)
        ((lay.walk before (lines.take n)).seen before' line))
    (h : (runFrom before lay lines).lines = (runFrom before' lay lines').lines) :
    (runFrom before lay lines).layout = (runFrom before' lay lines').layout := by
  induction lines generalizing lay lines' with
  | nil =>
      cases lines' with
      | nil => rfl
      | cons line' rest' => simp [runFrom, Pass.lines] at h
  | cons line rest ih =>
      cases lines' with
      | nil => simp [runFrom, Pass.lines] at h
      | cons line' rest' =>
          obtain ⟨number, stmt, wide⟩ := line
          obtain ⟨number', stmt', wide'⟩ := line'
          simp only [lines_runFrom_cons, List.cons.injEq, Line.mk.injEq] at h
          obtain ⟨⟨rfl, rfl, hwide⟩, hrest⟩ := h
          have hlen := Stmt.length_emit_congr (hformats 0 _ rfl) hwide
          have hstep : (lay.step before ⟨number, stmt, wide⟩).2 =
              (lay.step before' ⟨number, stmt, wide'⟩).2 := by
            simp only [Layout.step]
            simp only [List.take_zero, Layout.walk_nil, Layout.seen] at hlen
            rw [hlen]
            rfl
          simp only [runFrom]
          rw [← hstep] at hrest ⊢
          exact ih _ rest' (fun n line hline => hformats (n + 1) line hline) hrest

/-- If the same names are known in two passes and both leave the same lines, they leave the same
    layout. -/
theorem layout_eq_of_lines_eq {before before' : Lookup}
    (hnames : ∀ name, (before name).isSome = (before' name).isSome) (lay : Layout)
    (lines lines' : List Line)
    (h : (runFrom before lay lines).lines = (runFrom before' lay lines').lines) :
    (runFrom before lay lines).layout = (runFrom before' lay lines').layout := by
  refine layout_eq_of_sameFormats lay lines lines' (fun n line _ => ?_) h
  -- on a line the same labels are bound on both sides, so the same names are seen there
  refine Stmt.sameFormats_of_names (fun name => ?_) line.stmt
  simp only [Layout.seen, Layout.known_apply, Option.isSome_or, hnames name]

/-! ## The passes over a program -/

variable (program : List Line)

/-- The passes over a program, the first of them numbered 0, if they never came to an end. -/
def nth : Nat → Pass
  | 0 => first program
  | n + 1 => (nth n).again

/-- The cells that the labels had before a pass. -/
def addressesBefore : Nat → List (String × Nat)
  | 0 => []
  | n + 1 => (nth program n).symbols.addresses

/-- A pass leaves every label where it was before it. -/
def IsStable (n : Nat) : Prop :=
  (nth program n).symbols.addresses = addressesBefore program n

/-- All passes have the lines of the program, apart from which of them are wide. -/
theorem map_lines_nth {β : Type} (f : Nat → Stmt → β) (n : Nat) :
    (nth program n).lines.map (fun line => f line.number line.stmt) =
      program.map fun line => f line.number line.stmt := by
  induction n with
  | zero => exact map_lines_runFrom _ _ f program
  | succ n ih => exact (map_lines_runFrom _ _ f _).trans ih

theorem any_stmt_lines_nth (f : Stmt → Bool) (n : Nat) :
    (nth program n).lines.any (f ·.stmt) = program.any (f ·.stmt) := by
  have h := congrArg (·.any f) (map_lines_nth program (fun _ s => s) n)
  simpa [List.any_map, Function.comp_def] using h

theorem isSome_address?_nth (n : Nat) (name : String) :
    ((nth program n).symbols.address? name).isSome =
      program.any (·.stmt.defines? = some name) := by
  cases n with
  | zero => exact isSome_address?_run _ program name
  | succ n =>
      exact (isSome_address?_run _ _ name).trans
        (any_stmt_lines_nth program (fun s => s.defines? = some name) n)

theorem isStable_of_layout_eq {n : Nat}
    (h : (nth program (n + 1)).layout = (nth program n).layout) : IsStable program (n + 1) := by
  simp only [IsStable, addressesBefore, symbols, Symbols.addresses, h]

/-- From the second pass on, a pass that leaves its lines as they are leaves the labels too. -/
theorem isStable_of_lines_eq {n : Nat}
    (h : (nth program (n + 2)).lines = (nth program (n + 1)).lines) :
    IsStable program (n + 2) := by
  have hnames : ∀ name, ((nth program (n + 1)).symbols.address? name).isSome =
      ((nth program n).symbols.address? name).isSome := by
    intro name
    rw [isSome_address?_nth, isSome_address?_nth]
  exact isStable_of_layout_eq program (layout_eq_of_lines_eq hnames {} _ _ h)

/-! ## Counting the wide instructions -/

theorem countP_wide_nth_lt {n : Nat} (h : ¬ IsStable program (n + 2)) :
    (nth program (n + 1)).lines.countP (·.wide) < (nth program (n + 2)).lines.countP (·.wide) := by
  rcases lines_runFrom_eq_or_lt (nth program (n + 1)).symbols.address? {}
    (nth program (n + 1)).lines with heq | hlt
  · exact absurd (isStable_of_lines_eq program heq) h
  · exact hlt

/-- No more lines are wide after a pass than the program has instructions. -/
theorem countP_wide_nth_le (hnarrow : ∀ line ∈ program, line.wide = false) (n : Nat) :
    (nth program n).lines.countP (·.wide) ≤ program.countP (·.stmt.isInstr) := by
  have hinstr : ∀ line ∈ (nth program n).lines, line.wide = true → line.stmt.isInstr = true := by
    induction n with
    | zero =>
        refine isInstr_of_wide_runFrom _ _ program ?_
        intro line hmem hwide
        simp [hnarrow line hmem] at hwide
    | succ n ih => exact isInstr_of_wide_runFrom _ _ _ ih
  have hcount := congrArg (·.countP Stmt.isInstr) (map_lines_nth program (fun _ s => s) n)
  simp only [List.countP_map, Function.comp_def] at hcount
  rw [← hcount]
  exact List.countP_mono_left hinstr

/-- A pass within the limit is stable: each one after the second that is not has widened an
    instruction, and there are too few of them for all to do so. -/
theorem exists_isStable (hnarrow : ∀ line ∈ program, line.wide = false) :
    ∃ n ≤ limit program, IsStable program n := by
  refine Classical.byContradiction ?_
  intro hnone
  have hunstable : ∀ n ≤ limit program, ¬ IsStable program n :=
    fun n hn hs => hnone ⟨n, hn, hs⟩
  have hwide : ∀ n, n + 1 ≤ limit program →
      n ≤ (nth program (n + 1)).lines.countP (·.wide) := by
    intro n
    induction n with
    | zero => intro _; exact Nat.zero_le _
    | succ n ih =>
        intro hn
        exact Nat.lt_of_le_of_lt (ih (by omega)) (countP_wide_nth_lt program (hunstable (n + 2) hn))
  have hmany := hwide (program.countP (·.stmt.isInstr) + 1) (Nat.le_refl _)
  have hfew := countP_wide_nth_le program hnarrow (limit program)
  exact absurd (Nat.le_trans hmany hfew) (by omega)

/-! ## The settled pass -/

/-- Settling goes on to the first stable pass, or as far as it may. -/
theorem settle_eq_nth (fuel n : Nat) :
    ∃ m ≤ fuel, settle (addressesBefore program n) fuel (nth program n) = nth program (n + m) ∧
      (∀ i < m, ¬ IsStable program (n + i)) ∧ (m < fuel → IsStable program (n + m)) := by
  induction fuel generalizing n with
  | zero => exact ⟨0, Nat.le_refl 0, rfl, nofun, nofun⟩
  | succ fuel ih =>
      by_cases hs : IsStable program n
      · exact ⟨0, Nat.zero_le _, if_pos hs, nofun, fun _ => hs⟩
      · obtain ⟨m, hm, heq, hbefore, hstable⟩ := ih (n + 1)
        have hstep : settle (addressesBefore program n) (fuel + 1) (nth program n) =
            settle (addressesBefore program (n + 1)) fuel (nth program (n + 1)) := if_neg hs
        refine ⟨m + 1, by omega, ?_, ?_, ?_⟩
        · rw [hstep, heq]
          congr 1
          omega
        · intro i hi
          cases i with
          | zero => exact hs
          | succ i =>
              have := hbefore i (by omega)
              rwa [show n + 1 + i = n + (i + 1) by omega] at this
        · intro hlt
          have := hstable (by omega)
          rwa [show n + 1 + m = n + (m + 1) by omega] at this

/-- The settled pass is the first stable one. -/
theorem exists_settled_eq_nth (hnarrow : ∀ line ∈ program, line.wide = false) :
    ∃ n ≤ limit program, settled program = nth program n ∧ IsStable program n ∧
      ∀ i < n, ¬ IsStable program i := by
  obtain ⟨m, hm, heq, hbefore, hstable⟩ := settle_eq_nth program (limit program) 0
  simp only [Nat.zero_add] at heq hbefore hstable
  refine ⟨m, hm, heq, ?_, hbefore⟩
  rcases Nat.lt_or_eq_of_le hm with hlt | hlast
  · exact hstable hlt
  · obtain ⟨n, hn, hs⟩ := exists_isStable program hnarrow
    -- no pass before the last that may be made is stable, so the stable one is that
    rcases Nat.lt_or_eq_of_le (hlast ▸ hn : n ≤ m) with hlt | rfl
    · exact absurd hs (hbefore n hlt)
    · exact hs

/-! ## The settled pass as a fixed point -/

/-- The cells that the labels had before a pass, to be looked up. -/
def knownBefore : Nat → Lookup
  | 0 => fun _ => none
  | n + 1 => (nth program n).symbols.address?

/-- The lines that a pass walks. -/
def linesBefore : Nat → List Line
  | 0 => program
  | n + 1 => (nth program n).lines

theorem nth_eq_run (n : Nat) :
    nth program n = run (knownBefore program n) (linesBefore program n) := by
  cases n <;> rfl

theorem map_linesBefore {β : Type} (f : Nat → Stmt → β) (n : Nat) :
    (linesBefore program n).map (fun line => f line.number line.stmt) =
      program.map fun line => f line.number line.stmt := by
  cases n with
  | zero => rfl
  | succ n => exact map_lines_nth program f n

/-- A stable pass has worked with its own labels all along. -/
theorem knownBefore_eq_of_isStable {n : Nat} (h : IsStable program n) :
    knownBefore program n = (nth program n).symbols.address? := by
  cases n with
  | zero =>
      have hempty : (nth program 0).symbols.addresses = Symbols.empty.addresses := h
      exact (Symbols.address?_eq_of_addresses_eq hempty).symm
  | succ n => exact Symbols.address?_eq_of_addresses_eq h.symm

/-- The settled pass is a pass with the labels that it found itself. -/
theorem exists_settled_eq_run (hnarrow : ∀ line ∈ program, line.wide = false) :
    ∃ lines, settled program = run (settled program).symbols.address? lines ∧
      lines.map (fun line => (line.number, line.stmt)) =
        program.map fun line => (line.number, line.stmt) := by
  obtain ⟨n, -, hsettled, hstable, -⟩ := exists_settled_eq_nth program hnarrow
  refine ⟨linesBefore program n, ?_, map_linesBefore program Prod.mk n⟩
  rw [hsettled, ← knownBefore_eq_of_isStable program hstable]
  exact nth_eq_run program n

/-- One more pass leaves the settled one as it is, also if that one has just made an instruction
    wide. -/
theorem again_settled (hnarrow : ∀ line ∈ program, line.wide = false) :
    (settled program).again = settled program := by
  obtain ⟨lines, hrun, -⟩ := exists_settled_eq_run program hnarrow
  generalize settled program = p at hrun ⊢
  calc p.again
      = run p.symbols.address? (run p.symbols.address? lines).lines := by rw [← hrun]; rfl
    _ = run p.symbols.address? lines := runFrom_lines _ _ lines
    _ = p := hrun.symm

theorem map_lines_settled {β : Type} (f : Nat → Stmt → β)
    (hnarrow : ∀ line ∈ program, line.wide = false) :
    (settled program).lines.map (fun line => f line.number line.stmt) =
      program.map fun line => f line.number line.stmt := by
  obtain ⟨n, -, hsettled, -, -⟩ := exists_settled_eq_nth program hnarrow
  rw [hsettled]
  exact map_lines_nth program f n

end Pass

/-! ## Assembly -/

theorem Source.wide_eq_false_of_mem_program {source : String} :
    ∀ line ∈ program source, line.wide = false := by
  intro line hmem
  obtain ⟨_, _, rfl⟩ := List.mem_map.1 hmem
  rfl

theorem Source.map_program {β : Type} (source : String) (f : Stmt → β) :
    (program source).map (fun line => f line.stmt) = (statements source).map f := by
  rw [program, List.map_map]
  change ((statements source).zipIdx 1).map (f ∘ Prod.fst) = _
  rw [← List.map_map, List.zipIdx_map_fst]

/-- The settled pass knows the labels that the statements of a text define, and no others. -/
theorem Source.isSome_address?_settled (source name : String) :
    ((Pass.settled (program source)).symbols.address? name).isSome =
      (statements source).any (·.defines? = some name) := by
  obtain ⟨n, -, hsettled, -, -⟩ :=
    Pass.exists_settled_eq_nth (program source) wide_eq_false_of_mem_program
  rw [hsettled, Pass.isSome_address?_nth]
  have hmapped := congrArg (·.any id)
    (map_program source fun s => decide (s.defines? = some name))
  simpa [List.any_map, Function.comp_def] using hmapped

theorem Source.getElem?_program {source : String} {n : Nat} {s : Stmt}
    (h : (statements source)[n]? = some s) :
    (program source)[n]? = some { number := n + 1, stmt := s } := by
  simp [program, h, Nat.add_comm]

theorem Source.length_program (source : String) :
    (program source).length = (statements source).length := by
  simp [program]

/-- The settled pass over a text walks its statements in order, with the labels it found itself. -/
theorem Source.exists_settled_eq_run (source : String) :
    ∃ lines : List Line,
      Pass.settled (program source) =
        Pass.run (Pass.settled (program source)).symbols.address? lines ∧
      lines.map (·.stmt) = statements source ∧
      ∀ n s, (statements source)[n]? = some s →
        ∃ wide, lines[n]? = some (⟨n + 1, s, wide⟩ : Line) := by
  obtain ⟨lines, hrun, hlines⟩ := Pass.exists_settled_eq_run (program source)
    wide_eq_false_of_mem_program
  refine ⟨lines, hrun, ?_, ?_⟩
  · have hstmts := congrArg (List.map Prod.snd) hlines
    rw [List.map_map, List.map_map] at hstmts
    exact hstmts.trans ((map_program source id).trans (List.map_id _))
  · intro n s hs
    have hline := congrArg (·[n]?) hlines
    simp only [List.getElem?_map, getElem?_program hs, Option.map_some, Option.map_eq_some_iff,
      Prod.mk.injEq] at hline
    obtain ⟨⟨number, stmt, wide⟩, hline, rfl, rfl⟩ := hline
    exact ⟨wide, hline⟩

/-- A line has the cell that its entry in the settled pass is mapped to. -/
theorem Source.lineAddress?_settled (source : String) (n : Nat) :
    (Pass.settled (program source)).symbols.lineAddress? (n + 1) =
      (Pass.settled (program source)).entries[n]?.bind fun e => e.mapping?.map (·.2) := by
  obtain ⟨lines, hrun, hstmts, hlines⟩ := exists_settled_eq_run source
  have hlength : lines.length = (statements source).length := by
    rw [← hstmts, List.length_map]
  generalize Pass.settled (program source) = p at hrun ⊢
  have hnumber : ∀ i e, p.entries[i]? = some e → e.line.number = 1 + i := by
    intro i e he
    rw [hrun, Pass.run, Pass.getElem?_entries_runFrom] at he
    obtain ⟨line, hline, rfl⟩ := Option.map_eq_some_iff.1 he
    have hi : i < (statements source).length := hlength ▸ (List.getElem?_eq_some_iff.1 hline).1
    obtain ⟨wide, hline'⟩ := hlines i _ (List.getElem?_eq_getElem hi)
    obtain rfl := Option.some.inj (hline.symm.trans hline')
    exact Nat.add_comm i 1
  rw [Nat.add_comm n 1]
  exact Pass.lookup_filterMap_mapping? hnumber n

theorem Source.lineAddress?_of_entry {source : String} {n : Nat} {e : Entry}
    (h : (Pass.settled (program source)).entries[n]? = some e) :
    (Pass.settled (program source)).symbols.lineAddress? (n + 1) =
      if e.line.stmt.isMapped then e.site? else none := by
  rw [lineAddress?_settled, h, Option.bind_some, Entry.map_mapping?]

/-- Passes settle: at most three more of them than the text has instructions are needed until one
    leaves all labels where they were before it, and the first such pass is the result. -/
theorem assemble_eq_first_stable_pass (source : String) :
    ∃ n, n + 1 ≤ (Source.statements source).countP Stmt.isInstr + 3 ∧
      Pass.IsStable (Source.program source) n ∧
      (∀ i < n, ¬ Pass.IsStable (Source.program source) i) ∧
      assemble source =
        ⟨(Pass.nth (Source.program source) n).object,
          (Pass.nth (Source.program source) n).findings⟩ := by
  obtain ⟨n, hn, hsettled, hstable, hfirst⟩ :=
    Pass.exists_settled_eq_nth (Source.program source) Source.wide_eq_false_of_mem_program
  have hcount : (Source.program source).countP (·.stmt.isInstr) =
      (Source.statements source).countP Stmt.isInstr := by
    have h := congrArg (·.countP id) (Source.map_program source Stmt.isInstr)
    simpa [List.countP_map, Function.comp_def] using h
  refine ⟨n, ?_, hstable, hfirst, ?_⟩
  · rw [← hcount]
    simpa [Pass.limit] using hn
  · simp only [assemble, hsettled]

/-- What is assembled is a fixed point: a pass over the same statements that starts with the labels
    of the settled pass, and keeps the instructions wide that are wide in it, finds the same labels,
    cells, widths and defects again. -/
theorem run_settled (source : String) :
    assemble source =
        ⟨(Pass.settled (Source.program source)).object,
          (Pass.settled (Source.program source)).findings⟩ ∧
      let p := Pass.settled (Source.program source)
      p.lines.map (fun line => (line.number, line.stmt)) =
          (Source.program source).map (fun line => (line.number, line.stmt)) ∧
        Pass.run p.symbols.address? p.lines = p := by
  have hnarrow : ∀ line ∈ Source.program source, line.wide = false :=
    Source.wide_eq_false_of_mem_program
  exact ⟨rfl, Pass.map_lines_settled _ Prod.mk hnarrow, Pass.again_settled _ hnarrow⟩

end DecimalMachine
