import DecimalMachine.Proofs.Assembly.Findings

set_option autoImplicit false

/-! # What moves a label from one pass to the next

A pass that leaves its lines as they are, which is one that widens nothing, can move a label only if
some statement emits another number of cells than it did in the pass before; and as its width is the
same, this is one whose mode has a format in one of the passes and none in the other. From the
second pass on the same names are known, and the modes are what they were. In the first pass,
though, the labels of later lines are not known yet, so an operand that is such a label as it stands
changes its mode in the second. That matters for `INC $L` and `DEC $L` only, if the `$` belongs to
the label: they are faulty and emit nothing until `$L` is known (`Source.Belated`).

Apart from these, each pass after the first widens an instruction or leaves all labels where they
were (`widens_or_isStable`). -/

namespace DecimalMachine

namespace Pass

instance (program : List Line) (n : Nat) : Decidable (IsStable program n) :=
  inferInstanceAs (Decidable (_ = _))

/-! ## Passes that widen -/

/-- A pass leaves its lines as they are, or it widens an instruction that was not wide before. -/
theorem lines_runFrom_eq_or_exists (before : Lookup) (lay : Layout) (lines : List Line) :
    (runFrom before lay lines).lines = lines ∨
      ∃ (i : Nat) (line line' : Line), lines[i]? = some line ∧
        (runFrom before lay lines).lines[i]? = some line' ∧ line.stmt.isInstr = true ∧
        line.wide = false ∧ line'.wide = true := by
  induction lines generalizing lay with
  | nil => exact .inl rfl
  | cons line rest ih =>
      rw [lines_runFrom_cons]
      by_cases hwidens : line.wide = false ∧ (lay.emission before line).isWide = true
      · obtain ⟨hnarrow, hwide⟩ := hwidens
        refine .inr ⟨0, line, _, rfl, rfl, Stmt.isInstr_of_isWide_emit hwide, hnarrow, ?_⟩
        rw [hwide, Bool.or_true]
      · have hsame : (line.wide || (lay.emission before line).isWide) = line.wide := by
          cases hw : line.wide with
          | true => rfl
          | false => simpa [hw] using hwidens
        rw [hsame]
        rcases ih (lay.step before line).2 with hrest | ⟨i, l, l', hl, hl', hw⟩
        · exact .inl (by rw [hrest])
        · exact .inr ⟨i + 1, l, l', hl, hl', hw⟩

variable (program : List Line)

/-- A pass widens an instruction that was not wide before it. -/
def Widens (n : Nat) : Prop :=
  ∃ (i : Nat) (line line' : Line), (linesBefore program n)[i]? = some line ∧
    (nth program n).lines[i]? = some line' ∧ line.stmt.isInstr = true ∧
    line.wide = false ∧ line'.wide = true

variable {program} {n : Nat}

theorem Widens.lines_ne (h : Widens program n) : (nth program n).lines ≠ linesBefore program n := by
  obtain ⟨i, line, line', hline, hline', -, hnarrow, hwide⟩ := h
  intro hsame
  rw [hsame, hline] at hline'
  obtain rfl := Option.some.inj hline'
  rw [hwide] at hnarrow
  exact absurd hnarrow (by simp)

theorem widens_of_lines_ne (h : (nth program n).lines ≠ linesBefore program n) :
    Widens program n := by
  have hpass := lines_runFrom_eq_or_exists (knownBefore program n) {} (linesBefore program n)
  rw [nth_eq_run] at h
  rw [Widens, nth_eq_run]
  exact hpass.resolve_left h

end Pass

/-! ## Operands that are labels only later -/

namespace Source

/-- The operand of an `INC` or `DEC` is immediate as it is written, and it is a label as it stands,
    which only later lines define. -/
def Belated (source : String) (line : Nat) : Prop :=
  ∃ s op word, statement? source line = some s ∧ s.Instructs op word ∧ (op = .inc ∨ op = .dec) ∧
    '$' ∈ word.toList ∧ (∀ l ≤ line, defines? source l ≠ some word) ∧
    ∃ l > line, defines? source l = some word

variable {source : String}

/-- Without labels that are spelled with a `$` no line is belated. -/
theorem not_belated_of_labels
    (h : ∀ name ∈ (statements source).filterMap Stmt.defines?, '$' ∉ name.toList) (line : Nat) :
    ¬ Belated source line := by
  rintro ⟨_, _, word, -, -, -, hdollar, -, l, -, hdefines⟩
  obtain ⟨s, hs, hname⟩ := Option.bind_eq_some_iff.1 hdefines
  obtain ⟨n, rfl⟩ := exists_eq_succ_of_statement? hs
  exact h word (List.mem_filterMap.2 ⟨s, List.mem_of_getElem? hs, hname⟩) hdollar

theorem statement?_of_program {n : Nat} {line : Line} (h : (program source)[n]? = some line) :
    statement? source (n + 1) = some line.stmt := by
  have hstmts := congrArg (·[n]?) (map_program source fun s => s)
  rw [List.getElem?_map, h, List.map_id'] at hstmts
  exact hstmts.symm

theorem any_take_program_iff {n : Nat} {name : String} :
    ((program source).take n).any (·.stmt.defines? = some name) = true ↔
      ∃ l ≤ n, defines? source l = some name := by
  simp only [List.any_eq_true, decide_eq_true_eq]
  constructor
  · rintro ⟨line, hmem, hd⟩
    obtain ⟨i, hi⟩ := List.getElem?_of_mem hmem
    obtain ⟨hlt, hline⟩ : i < n ∧ (program source)[i]? = some line := by
      rw [List.getElem?_take] at hi
      split at hi
      · exact ⟨‹_›, hi⟩
      · exact absurd hi (by simp)
    refine ⟨i + 1, hlt, ?_⟩
    rw [defines?, statement?_of_program hline]
    exact hd
  · rintro ⟨l, hl, hdefines⟩
    obtain ⟨s, hs, hd⟩ := Option.bind_eq_some_iff.1 hdefines
    obtain ⟨i, rfl⟩ := exists_eq_succ_of_statement? hs
    have hline : ((program source).take n)[i]? = some ⟨i + 1, s, false⟩ := by
      rw [List.getElem?_take_of_lt hl]
      exact getElem?_program hs
    exact ⟨_, List.mem_of_getElem? hline, hd⟩

/-- On a line of the first pass the labels of the lines up to it are bound. -/
theorem address?_bind_eq_none_iff {n : Nat} {line : Line}
    (hline : (program source)[n]? = some line) (before : Lookup) (name : String) :
    ((Layout.walk before {} ((program source).take n)).bind line).address? name = none ↔
      ∀ l ≤ n + 1, defines? source l ≠ some name := by
  have hwalk : Layout.walk before {} ((program source).take (n + 1)) =
      ((Layout.walk before {} ((program source).take n)).step before line).2 := by
    rw [List.take_add_one, hline, Layout.walk_append]
    rfl
  rw [← Layout.address?_step before, ← hwalk, ← Option.isNone_iff_eq_none, ← Option.not_isSome,
    Layout.isSome_address?_walk, Layout.address?_empty, Option.isSome_none, Bool.false_or,
    Bool.not_eq_true', ← Bool.not_eq_true, any_take_program_iff]
  simp

/-- A line that is not belated has the same formats in the second pass as in the first. -/
theorem sameFormats_of_not_belated {n : Nat} {line : Line}
    (hline : (program source)[n]? = some line) (h : ¬ Belated source (n + 1)) :
    let lay := Layout.walk (fun _ => none) {} ((program source).take n)
    line.stmt.SameFormats (lay.seen (fun _ => none) line)
      (lay.seen (Pass.nth (program source) 0).symbols.address? line) := by
  intro lay
  unfold Stmt.SameFormats
  split
  · rename_i place mnemonic word hstmt
    intro hplace op hop hne
    rw [Operand.of?_taken_eq_none_iff hne, Operand.of?_taken_eq_none_iff hne]
    refine and_congr_right fun hkind => and_congr_left fun hdollar => ?_
    simp only [Layout.seen, Layout.known_apply, Option.or_eq_none_iff, and_true]
    refine Iff.symm ⟨And.left, fun hbound => ⟨hbound, ?_⟩⟩
    cases hknown : (Pass.nth (program source) 0).symbols.address? word with
    | none => rfl
    | some a =>
        -- a label that is not bound yet and known all the same is one of a later line
        have hnone := (address?_bind_eq_none_iff hline _ word).1 hbound
        have hdefined : ((program source).take (program source).length).any
            (·.stmt.defines? = some word) = true := by
          rw [List.take_length, ← Pass.isSome_address?_nth (program source) 0, hknown]
          rfl
        obtain ⟨l, -, hl⟩ := any_take_program_iff.1 hdefined
        have hlater : n + 1 < l := Nat.lt_of_not_le fun hle => hnone l hle hl
        have hs := statement?_of_program hline
        rw [hstmt] at hs
        exact absurd ⟨_, op, word, hs, .intro (Stmt.isMisplaced_eq_false_iff.1 hplace) hop hne,
          hkind, hdollar, hnone, l, hlater, hl⟩ h
  · trivial

end Source

/-- Each pass after the first widens an instruction that was not wide before it, or it leaves all
    labels where they were. For the second pass this takes that no line is belated. -/
theorem widens_or_isStable (source : String) (n : Nat)
    (h : n = 0 → ∀ line, ¬ Source.Belated source line) :
    Pass.Widens (Source.program source) (n + 1) ∨
      Pass.IsStable (Source.program source) (n + 1) := by
  by_cases hlines : (Pass.nth (Source.program source) (n + 1)).lines =
      (Pass.nth (Source.program source) n).lines
  · right
    cases n with
    | zero =>
        refine Pass.isStable_of_layout_eq _ (Eq.symm ?_)
        refine Pass.layout_eq_of_sameFormats {} _ _ ?_ hlines.symm
        intro i line hline
        exact Source.sameFormats_of_not_belated hline (h rfl (i + 1))
    | succ n => exact Pass.isStable_of_lines_eq _ hlines
  · exact .inl (Pass.widens_of_lines_ne hlines)

/-- The label is at 1000 when it is used for the first time, and the branch that is widened for it
    moves it on. -/
theorem widens_or_isStable_forward_label :
    let program := Source.program ".code 999\nBRA L\nL: HLT"
    ¬ Pass.IsStable program 1 ∧ Pass.Widens program 1 := by
  intro program
  have hmoved : ¬ Pass.IsStable program 1 := by decide +kernel
  have hpass := widens_or_isStable ".code 999\nBRA L\nL: HLT" 0
    fun _ => Source.not_belated_of_labels (by decide +kernel)
  exact ⟨hmoved, hpass.resolve_right hmoved⟩

/-- In the first pass `INC $5` is faulty and emits nothing. In the second it is known that `$5` is a
    label, so one cell is emitted and the labels move, although nothing is widened. -/
theorem not_widens_of_belated :
    let program := Source.program "INC $5\nL: HLT\n$5: HLT"
    ¬ (Pass.Widens program 1 ∨ Pass.IsStable program 1) ∧
      (Pass.nth program 0).symbols.address? "L" = some 0 ∧
      (Pass.nth program 1).symbols.address? "L" = some 1 := by
  intro program
  have hsame : (Pass.nth program 1).lines = Pass.linesBefore program 1 := by decide +kernel
  have hmoved : ¬ Pass.IsStable program 1 := by decide +kernel
  refine ⟨?_, by decide +kernel, by decide +kernel⟩
  rintro (hwidens | hstable)
  · exact hwidens.lines_ne hsame
  · exact hmoved hstable

end DecimalMachine
