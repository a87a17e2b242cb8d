import DecimalMachine.Proofs.Assembly.Settling
import DecimalMachine.Proofs.Instr.RoundTrip

set_option autoImplicit false

/-! # What is found wrong with a text

Every pass has findings of its own, and those of the last one count. What is wrong with a statement
depends on the names that are known as labels and not on their cells (`Stmt.defects_emit_congr`),
and in the settled pass every line knows the names that the whole text defines, also those that are
defined below it. So the defects of a line are those of its statement under the labels as they are
in the end, with one more if its label clashes (`Source.mem_findings_iff`): which findings there are
can be told from the text and the symbols alone (`findings_iff`). -/

namespace DecimalMachine

/-! ## Operands -/

namespace Operand

variable {known known' : Lookup}

/-- A word names no operand if neither it nor what is left of it without the marks of a mode is a
    label, and that is no number either. -/
theorem resolve?_eq_none_iff {word : String} :
    resolve? known word = none ↔
      known word = none ∧ Token.int? (bare word) = none ∧ known (bare word) = none := by
  unfold resolve? value?
  cases known word <;> simp

/-- Whether a word names an operand depends on the names of the known labels only. -/
theorem malformed_congr (h : ∀ name, (known name).isSome = (known' name).isSome) (word : String) :
    malformed known word = malformed known' word := by
  have hnone : ∀ name, known name = none ↔ known' name = none := by
    intro name
    rw [← Option.isNone_iff_eq_none, ← Option.isNone_iff_eq_none, ← Option.not_isSome, h,
      Option.not_isSome]
  simp only [malformed, Option.isNone_iff_eq_none, resolve?_eq_none_iff, hnone]

theorem writtenMode_eq_immediate_iff {word : String} :
    writtenMode word = .immediate ↔ '$' ∈ word.toList := by
  unfold writtenMode
  split
  · rename_i h
    simpa using h
  · rename_i h
    simp only [List.contains_eq_mem, decide_eq_true_eq] at h
    split <;> simp [h]

end Operand

/-! ## Instructions -/

/-- An instruction with an operand has up to two defects: its word names no operand, and its mode
    has no format. -/
theorem defects_emitInstr {mnemonic : String} {op : Opcode}
    (hop : Opcode.ofWord? mnemonic = some op) (hne : op ≠ .hlt) (known : Lookup) (wide : Bool)
    (word : String) :
    (emitInstr known wide mnemonic word).defects =
      Operand.malformed known word ++
        if Format.of? op (Operand.taken known word).mode = none then [.invalidMode] else [] := by
  rw [emitInstr_eq hop hne]
  simp only [Instr.encodeFrom]
  cases Format.of? op (Operand.taken known word).mode with
  | none => rfl
  | some f =>
      by_cases hp : (if wide then Width.wide else .packed) = .packed ∧
          f.packs (Operand.taken known word).value
      · simp only [if_pos hp, reduceCtorEq, if_false, List.append_nil]
      · simp only [if_neg hp, reduceCtorEq, if_false, List.append_nil]

/-- Only `INC` and `DEC` have a mode without a format: they take no immediate operand. -/
theorem Operand.of?_taken_eq_none_iff {op : Opcode} (hne : op ≠ .hlt) {known : Lookup}
    {word : String} :
    Format.of? op (taken known word).mode = none ↔
      (op = .inc ∨ op = .dec) ∧ known word = none ∧ '$' ∈ word.toList := by
  rw [Format.of?_eq_none_iff, mode_taken, ← writtenMode_eq_immediate_iff]
  cases known word <;> simp [hne, and_comm]

/-! ## Statements -/

namespace Stmt

variable {s : Stmt} {op : Opcode} {known known' : Lookup} {wide wide' : Bool} {word : String}

/-- A statement is an instruction with an operand that has a cell to stand at: where it names one,
    it does so with a number that is not negative. -/
inductive Instructs : Stmt → Opcode → String → Prop
  | intro {place : Option Place} {mnemonic word : String} {op : Opcode}
      (hplace : ∀ w, place = some (.cell w) → ∃ v, Token.int? w = some v ∧ 0 ≤ v.toInt)
      (hop : Opcode.ofWord? mnemonic = some op) (hne : op ≠ .hlt) :
      Instructs (put place (.instr mnemonic word)) op word

theorem isMisplaced_eq_false_iff {place : Option Place} :
    isMisplaced place = false ↔
      ∀ w, place = some (.cell w) → ∃ v, Token.int? w = some v ∧ 0 ≤ v.toInt := by
  rcases place with _ | ⟨name⟩ | ⟨w⟩
  · simp [isMisplaced]
  · simp [isMisplaced]
  · cases hv : Token.int? w <;>
      simp [isMisplaced, Token.address?, hv, Cell.address?, ← Option.not_isSome]

theorem Instructs.defects_emit (h : s.Instructs op word) (known : Lookup) (wide : Bool) :
    (s.emit known wide).defects =
      Operand.malformed known word ++
        if Format.of? op (Operand.taken known word).mode = none then [.invalidMode] else [] := by
  obtain ⟨hplace, hop, hne⟩ := h
  rw [emit, if_neg (by simp [isMisplaced_eq_false_iff.2 hplace]), emitItem]
  exact defects_emitInstr hop hne known wide word

theorem Instructs.mem_defects_emit_iff (h : s.Instructs op word) {d : Defect} :
    d ∈ (s.emit known wide).defects ↔
      (d = .malformedOperand ∧ Operand.resolve? known word = none) ∨
        (d = .invalidMode ∧ (op = .inc ∨ op = .dec) ∧ known word = none ∧ '$' ∈ word.toList) := by
  have hne : op ≠ .hlt := by
    obtain ⟨-, -, hne⟩ := h
    exact hne
  rw [h.defects_emit, ← Operand.of?_taken_eq_none_iff hne, List.mem_append, Operand.malformed]
  refine or_congr ?_ ?_
  · split <;> simp_all
  · split <;> simp_all

/-- A statement that is no instruction with an operand and a place has at most one defect, the same
    whatever is known, and it is about the line alone. -/
theorem defects_emit_cases (s : Stmt) :
    (∃ op word, s.Instructs op word) ∨
      (∀ op word, ¬ s.Instructs op word) ∧
      ∃ ds : List Defect, (∀ known wide, (s.emit known wide).defects = ds) ∧ ds.length ≤ 1 ∧
        ∀ d ∈ ds, d ≠ .malformedOperand ∧ d ≠ .invalidMode ∧ d ≠ .overlappingLabel := by
  by_cases hs : ∃ op word, s.Instructs op word
  · exact .inl hs
  refine .inr ⟨fun op word h => hs ⟨op, word, h⟩, ?_⟩
  cases s with
  | blank | label => exact ⟨[], fun _ _ => rfl, by simp⟩
  | overlong => exact ⟨[.unexpectedWord], fun _ _ => rfl, by simp⟩
  | directive name argument =>
      by_cases hname : (Directive.ofName? name).isNone
      · exact ⟨[.unknownDirective], fun _ _ => by simp [emit, hname, Emission.ofDefect], by simp⟩
      by_cases hargument : (Token.address? argument).isNone
      · exact ⟨[.malformedAddress],
          fun _ _ => by simp [emit, hname, hargument, Emission.ofDefect], by simp⟩
      · exact ⟨[], fun _ _ => by simp [emit, hname, hargument], by simp⟩
  | put place item =>
      by_cases hplace : isMisplaced place
      · exact ⟨[.malformedAddress], fun _ _ => by simp [emit, hplace, Emission.ofDefect], by simp⟩
      have hemit : ∀ known wide, (put place item).emit known wide =
          emitItem known wide place item :=
        fun _ _ => by simp [emit, hplace]
      simp only [hemit]
      cases item with
      | value v => exact ⟨[], fun _ _ => rfl, by simp⟩
      | word w =>
          refine ⟨notHalt w, fun _ _ => rfl, ?_⟩
          unfold notHalt
          split <;> simp
      | instr mnemonic word =>
          cases hop : Opcode.ofWord? mnemonic with
          | none => exact ⟨[.unknownMnemonic], fun _ _ => by simp [emitItem, emitInstr, hop,
              Emission.ofDefect], by simp⟩
          | some op =>
              by_cases hne : op = .hlt
              · subst hne
                exact ⟨[], fun _ _ => by simp [emitItem, emitInstr, hop, Emission.ofCell], by simp⟩
              · exact absurd ⟨op, word, isMisplaced_eq_false_iff.1 (by simpa using hplace), hop,
                  hne⟩ hs

/-- What is wrong with a statement depends on the names of the known labels only. -/
theorem defects_emit_congr (h : ∀ name, (known name).isSome = (known' name).isSome) (s : Stmt) :
    (s.emit known wide).defects = (s.emit known' wide').defects := by
  rcases s.defects_emit_cases with ⟨op, word, hs⟩ | ⟨-, ds, hds, -⟩
  · rw [hs.defects_emit, hs.defects_emit, Operand.malformed_congr h, Operand.mode_taken_congr h]
  · rw [hds, hds]

theorem nodup_defects_emit : (s.emit known wide).defects.Nodup := by
  rcases s.defects_emit_cases with ⟨op, word, hs⟩ | ⟨-, ds, hds, hlength, -⟩
  · rw [hs.defects_emit, Operand.malformed]
    split <;> split <;> simp
  · rw [hds]
    cases ds with
    | nil => exact List.nodup_nil
    | cons d ds =>
        obtain rfl : ds = [] := by simpa using hlength
        exact List.pairwise_singleton _ d

theorem overlappingLabel_not_mem_emit : .overlappingLabel ∉ (s.emit known wide).defects := by
  rcases s.defects_emit_cases with ⟨op, word, hs⟩ | ⟨-, ds, hds, -, hkind⟩
  · simp [hs.mem_defects_emit_iff]
  · rw [hds]
    exact fun h => (hkind _ h).2.2 rfl

/-- The two defects of operands are found at instructions with an operand and a place, and nowhere
    else. -/
theorem mem_defects_emit_iff {d : Defect} (hd : d = .malformedOperand ∨ d = .invalidMode) :
    d ∈ (s.emit known wide).defects ↔
      ∃ op word, s.Instructs op word ∧
        ((d = .malformedOperand ∧ Operand.resolve? known word = none) ∨
          (d = .invalidMode ∧ (op = .inc ∨ op = .dec) ∧ known word = none ∧
            '$' ∈ word.toList)) := by
  rcases s.defects_emit_cases with ⟨op, word, hs⟩ | ⟨hnone, ds, hds, -, hkind⟩
  · constructor
    · exact fun h => ⟨op, word, hs, hs.mem_defects_emit_iff.1 h⟩
    · rintro ⟨op, word, hs, h⟩
      exact hs.mem_defects_emit_iff.2 h
  · rw [hds]
    constructor
    · intro h
      obtain ⟨hmalformed, hmode, -⟩ := hkind d h
      exact absurd hd (not_or.2 ⟨hmalformed, hmode⟩)
    · rintro ⟨op, word, hs, -⟩
      exact absurd hs (hnone op word)

theorem malformedOperand_mem_emit_iff :
    .malformedOperand ∈ (s.emit known wide).defects ↔
      ∃ op word, s.Instructs op word ∧ known word = none ∧
        Token.int? (Operand.bare word) = none ∧ known (Operand.bare word) = none := by
  rw [mem_defects_emit_iff (.inl rfl)]
  simp [Operand.resolve?_eq_none_iff]

theorem invalidMode_mem_emit_iff :
    .invalidMode ∈ (s.emit known wide).defects ↔
      ∃ op word, s.Instructs op word ∧ (op = .inc ∨ op = .dec) ∧ known word = none ∧
        '$' ∈ word.toList := by
  rw [mem_defects_emit_iff (.inr rfl)]
  simp

end Stmt

/-! ## Labels that clash -/

theorem Stmt.isMapped_of_defines? {s : Stmt} {name : String} (h : s.defines? = some name) :
    s.isMapped = true := by
  rcases s with _ | _ | _ | ⟨_ | _, _⟩ | _
  all_goals first | rfl | exact absurd h (by simp [defines?])

theorem Layout.mem_clash_iff {lay : Layout} {line : Line} {d : Defect} :
    d ∈ lay.clash line ↔
      d = .overlappingLabel ∧ ∃ name a b, line.stmt.defines? = some name ∧
        line.stmt.site? lay.cursors = some a ∧ lay.address? name = some b ∧ b ≠ a := by
  unfold clash address?
  cases hd : line.stmt.defines? with
  | none => simp
  | some name =>
      cases ha : line.stmt.site? lay.cursors with
      | none => simp
      | some a => cases hb : lay.labels[name]? <;> simp [hb, and_comm]

theorem Layout.nodup_clash (lay : Layout) (line : Line) : (lay.clash line).Nodup := by
  unfold clash
  split
  · split <;> simp
  · exact List.nodup_nil

namespace Pass

variable (before : Lookup) (lay : Layout) (lines : List Line)

/-- Of values that replace one another the latest one counts. -/
theorem latest_eq_some_iff {β : Type} {found : Nat → Option β} (value : Nat → Option β)
    (hnone : value 0 = none)
    (hnext : ∀ n, value (n + 1) = (found n).or (value n)) {n : Nat} {b : β} :
    value n = some b ↔
      ∃ i < n, found i = some b ∧ ∀ j, i < j → j < n → found j = none := by
  induction n with
  | zero => simp [hnone]
  | succ n ih =>
      rw [hnext, Option.or_eq_some_iff, ih]
      constructor
      · rintro (h | ⟨hn, i, hi, hb, hbetween⟩)
        · exact ⟨n, Nat.lt_succ_self n, h, fun j hj hj' => absurd hj' (by omega)⟩
        · refine ⟨i, by omega, hb, fun j hj hj' => ?_⟩
          rcases Nat.lt_succ_iff_lt_or_eq.1 hj' with hlt | rfl
          · exact hbetween j hj hlt
          · exact hn
      · rintro ⟨i, hi, hb, hbetween⟩
        rcases Nat.lt_succ_iff_lt_or_eq.1 hi with hlt | rfl
        · exact .inr ⟨hbetween n hlt (Nat.lt_succ_self n), i, hlt, hb,
            fun j hj hj' => hbetween j hj (by omega)⟩
        · exact .inl hb

theorem walk_take_succ (n : Nat) :
    lay.walk before (lines.take (n + 1)) =
      match lines[n]? with
      | some line => ((lay.walk before (lines.take n)).step before line).2
      | none => lay.walk before (lines.take n) := by
  cases hline : lines[n]? with
  | none =>
      rw [List.take_of_length_le (Nat.le_succ_of_le (List.getElem?_eq_none_iff.1 hline)),
        List.take_of_length_le (List.getElem?_eq_none_iff.1 hline)]
  | some line =>
      rw [List.take_add_one, hline, Layout.walk_append]
      rfl

/-- In front of a line, the table of labels has what the nearest line that defines a label has left
    there. -/
theorem labels_walk_take (name : String) (n : Nat) (b : Binding)
    (hempty : lay.labels[name]? = none) :
    (lay.walk before (lines.take n)).labels[name]? = some b ↔
      ∃ i < n, ((runFrom before lay lines).entries[i]?.bind (·.binding? name)) = some b ∧
        ∀ j, i < j → j < n →
          ((runFrom before lay lines).entries[j]?.bind (·.binding? name)) = none := by
  refine latest_eq_some_iff (fun n => (lay.walk before (lines.take n)).labels[name]?) hempty
    fun n => ?_
  rw [getElem?_entries_runFrom, walk_take_succ]
  cases lines[n]? with
  | none => rfl
  | some line => exact Layout.getElem?_labels_step _ _ _ _

/-- In front of a line, a label is bound to the site of the nearest line that defines it. -/
theorem address?_walk_take (name : String) (n b : Nat) (hempty : lay.address? name = none) :
    (lay.walk before (lines.take n)).address? name = some b ↔
      ∃ i < n, ((runFrom before lay lines).entries[i]?.bind (·.binds? name)) = some b ∧
        ∀ j, i < j → j < n →
          ((runFrom before lay lines).entries[j]?.bind (·.binds? name)) = none := by
  refine latest_eq_some_iff (fun n => (lay.walk before (lines.take n)).address? name) hempty
    fun n => ?_
  rw [getElem?_entries_runFrom, walk_take_succ]
  cases lines[n]? with
  | none => rfl
  | some line => exact Layout.address?_step_eq_or _ _ _ _

/-- If a pass knows no labels before it but those that its lines define, no line sees others. -/
theorem isSome_seen_le {lines : List Line} {n : Nat} {line : Line} (hline : lines[n]? = some line)
    (hknown : ∀ name, (before name).isSome → lines.any (·.stmt.defines? = some name))
    (name : String) (h : ((Layout.walk before {} (lines.take n)).seen before line name).isSome) :
    lines.any (·.stmt.defines? = some name) := by
  have hstep : ((Layout.walk before {} (lines.take n)).step before line).2 =
      Layout.walk before {} (lines.take (n + 1)) := by
    rw [List.take_add_one, hline, Layout.walk_append]
    rfl
  rw [Layout.seen, Layout.known_apply, Option.isSome_or, Bool.or_eq_true,
    ← Layout.address?_step before, hstep, Layout.isSome_address?_walk] at h
  rcases h with h | h
  · simp only [Layout.address?_empty, Option.isSome_none, Bool.false_or, List.any_eq_true] at h ⊢
    obtain ⟨l, hl, hd⟩ := h
    exact ⟨l, List.mem_of_mem_take hl, hd⟩
  · exact hknown name h

/-- If the labels known before a pass are those that its lines define, every line sees their names
    and no others. -/
theorem isSome_seen {lines : List Line} {n : Nat} {line : Line} (hline : lines[n]? = some line)
    (hknown : ∀ name, (before name).isSome = lines.any (·.stmt.defines? = some name))
    (name : String) :
    ((Layout.walk before {} (lines.take n)).seen before line name).isSome =
      (before name).isSome := by
  rw [Bool.eq_iff_iff]
  constructor
  · intro h
    rw [hknown]
    exact isSome_seen_le before hline (fun name h => hknown name ▸ h) name h
  · intro h
    rw [Layout.seen, Layout.known_apply, Option.isSome_or, h, Bool.or_true]

end Pass

/-! ## Lines of the settled pass -/

namespace Source

/-- The statement of a line, counted from 1. -/
def statement? (source : String) : Nat → Option Stmt
  | 0 => none
  | n + 1 => (statements source)[n]?

/-- The label that a line defines, if it defines one. -/
def defines? (source : String) (line : Nat) : Option String :=
  (statement? source line).bind Stmt.defines?

/-- A line defines a label again that was defined before it, the last time on an earlier line. -/
structure Redefines (source name : String) (earlier line : Nat) : Prop where
  lt : earlier < line
  defines : defines? source line = some name
  defines_earlier : defines? source earlier = some name
  not_between : ∀ i, earlier < i → i < line → defines? source i ≠ some name

theorem exists_eq_succ_of_statement? {source : String} {line : Nat} {s : Stmt}
    (h : statement? source line = some s) : ∃ n, line = n + 1 := by
  cases line with
  | zero => exact absurd h (by simp [statement?])
  | succ n => exact ⟨n, rfl⟩

theorem exists_eq_succ_of_defines? {source name : String} {line : Nat}
    (h : defines? source line = some name) : ∃ n, line = n + 1 := by
  obtain ⟨s, hs, -⟩ := Option.bind_eq_some_iff.1 h
  exact exists_eq_succ_of_statement? hs

theorem statement?_settled (source : String) (n : Nat) :
    statement? source (n + 1) =
      (Pass.settled (program source)).entries[n]?.map (·.line.stmt) := by
  have hstmts := Pass.map_lines_settled (program source) (fun _ s => s) wide_eq_false_of_mem_program
  rw [map_program source fun s => s, List.map_id'] at hstmts
  rw [statement?, ← hstmts, Pass.lines, List.getElem?_map, List.getElem?_map, Option.map_map]
  rfl

theorem statement?_of_entry {source : String} {n : Nat} {e : Entry}
    (he : (Pass.settled (program source)).entries[n]? = some e) :
    statement? source (n + 1) = some e.line.stmt := by
  rw [statement?_settled, he]
  rfl

/-- Every statement of a text has an entry in the settled pass. -/
theorem exists_entry_of_statement? {source : String} {line : Nat} {s : Stmt}
    (h : statement? source line = some s) :
    ∃ n e, line = n + 1 ∧ (Pass.settled (program source)).entries[n]? = some e ∧
      e.line.stmt = s := by
  obtain ⟨n, rfl⟩ := exists_eq_succ_of_statement? h
  rw [statement?_settled, Option.map_eq_some_iff] at h
  obtain ⟨e, he, hs⟩ := h
  exact ⟨n, e, rfl, he, hs⟩

/-- The entry of a line is one step from a layout in which every label has the cell of the nearest
    line before that defines it, and on the line the names of all labels are known. -/
theorem exists_step_settled {source : String} {n : Nat} {s : Stmt}
    (hs : statement? source (n + 1) = some s) :
    let p := Pass.settled (program source)
    ∃ (lay : Layout) (wide : Bool),
      p.entries[n]? = some (lay.step p.symbols.address? ⟨n + 1, s, wide⟩).1 ∧
      (∀ name, (lay.seen p.symbols.address? ⟨n + 1, s, wide⟩ name).isSome =
        (p.symbols.address? name).isSome) ∧
      ∀ name b, lay.address? name = some b ↔
        ∃ i < n, (p.entries[i]?.bind (·.binds? name)) = some b ∧
          ∀ j, i < j → j < n → (p.entries[j]?.bind (·.binds? name)) = none := by
  obtain ⟨lines, hrun, -, hlines⟩ := exists_settled_eq_run source
  obtain ⟨wide, hline⟩ := hlines n s hs
  generalize Pass.settled (program source) = p at hrun ⊢
  refine ⟨Layout.walk p.symbols.address? {} (lines.take n), wide,
    Pass.getElem?_entries_of_eq_run hrun hline, Pass.isSome_seen _ hline ?_, ?_⟩
  · intro name
    rw [← Pass.isSome_address?_run p.symbols.address?, ← hrun]
  · intro name b
    have hentries : p.entries = (Pass.runFrom p.symbols.address? {} lines).entries :=
      congrArg Pass.entries hrun
    rw [hentries]
    exact Pass.address?_walk_take _ {} lines name n b rfl

/-- A line that defines a label is found by the cell that it binds the label to. -/
theorem binds?_settled (source name : String) (n : Nat) :
    ((Pass.settled (program source)).entries[n]?.bind (·.binds? name)) =
      if defines? source (n + 1) = some name
        then (Pass.settled (program source)).symbols.lineAddress? (n + 1) else none := by
  rw [defines?, statement?_settled]
  cases he : (Pass.settled (program source)).entries[n]? with
  | none => rfl
  | some e =>
      simp only [Option.bind_some, Option.map_some, Entry.binds?]
      split
      · rename_i hd
        rw [lineAddress?_of_entry he, if_pos (Stmt.isMapped_of_defines? hd)]
      · rfl

/-- A line that defines a label has the cell that its statement stands at in its step. -/
theorem lineAddress?_of_step {source : String} {n : Nat} {before : Lookup} {lay : Layout}
    {line : Line}
    (h : (Pass.settled (program source)).entries[n]? = some (lay.step before line).1)
    {name : String} (hd : line.stmt.defines? = some name) :
    (Pass.settled (program source)).symbols.lineAddress? (n + 1) =
      line.stmt.site? lay.cursors := by
  rw [lineAddress?_of_entry h, Layout.step_fst, if_pos (Stmt.isMapped_of_defines? hd)]

theorem isSome_lineAddress?_of_defines? {source name : String} {line : Nat}
    (h : defines? source line = some name) :
    ((Pass.settled (program source)).symbols.lineAddress? line).isSome := by
  obtain ⟨s, hs, hd⟩ := Option.bind_eq_some_iff.1 h
  obtain ⟨n, rfl⟩ := exists_eq_succ_of_statement? hs
  obtain ⟨lay, wide, hentry, -⟩ := exists_step_settled hs
  rw [lineAddress?_of_step hentry hd]
  exact Stmt.isSome_site?_of_defines? hd lay.cursors

/-- What is bound in front of a line that defines a label again is the cell of the nearest line
    before that defines it. -/
theorem binds_nearest_iff {source name : String} {n b : Nat}
    (h : defines? source (n + 1) = some name) :
    let p := Pass.settled (program source)
    (∃ i < n, (p.entries[i]?.bind (·.binds? name)) = some b ∧
        ∀ j, i < j → j < n → (p.entries[j]?.bind (·.binds? name)) = none) ↔
      ∃ earlier, Redefines source name earlier (n + 1) ∧
        p.symbols.lineAddress? earlier = some b := by
  have hnone : ∀ i, ((Pass.settled (program source)).entries[i]?.bind (·.binds? name)) = none ↔
      defines? source (i + 1) ≠ some name := by
    intro i
    rw [binds?_settled]
    by_cases hd : defines? source (i + 1) = some name
    · have := isSome_lineAddress?_of_defines? hd
      simp only [hd, if_true, ne_eq, not_true_eq_false, iff_false]
      exact Option.isSome_iff_ne_none.1 this
    · simp [hd]
  constructor
  · rintro ⟨i, hi, hb, hbetween⟩
    have hd : defines? source (i + 1) = some name := by
      refine Classical.byContradiction fun hd => ?_
      rw [(hnone i).2 hd] at hb
      exact absurd hb (by simp)
    rw [binds?_settled, if_pos hd] at hb
    refine ⟨i + 1, ⟨by omega, h, hd, fun k hk hk' => ?_⟩, hb⟩
    obtain ⟨j, rfl⟩ := Nat.exists_eq_succ_of_ne_zero (show k ≠ 0 by omega)
    exact (hnone j).1 (hbetween j (by omega) (by omega))
  · rintro ⟨earlier, ⟨hlt, -, hd, hbetween⟩, hb⟩
    obtain ⟨i, rfl⟩ := exists_eq_succ_of_defines? hd
    refine ⟨i, by omega, by rw [binds?_settled, if_pos hd, hb], fun j hj hj' => ?_⟩
    exact (hnone j).2 (hbetween (j + 1) (by omega) (by omega))

/-- The defects of a line are those of its statement under the labels as they are in the end, and
    one more if the nearest line before that defines its label stands at another cell. -/
theorem defects_settled {source : String} {n : Nat} {e : Entry}
    (he : (Pass.settled (program source)).entries[n]? = some e) :
    let p := Pass.settled (program source)
    e.line.number = n + 1 ∧ e.defects.Nodup ∧
      ∀ d, d ∈ e.defects ↔ d ∈ (e.line.stmt.emit p.symbols.address? false).defects ∨
        (d = .overlappingLabel ∧ ∃ name earlier, Redefines source name earlier (n + 1) ∧
          p.symbols.lineAddress? earlier ≠ p.symbols.lineAddress? (n + 1)) := by
  obtain ⟨s, hs⟩ : ∃ s, statement? source (n + 1) = some s := ⟨_, statement?_of_entry he⟩
  obtain ⟨lay, wide, hentry, hseen, hbound⟩ := exists_step_settled hs
  obtain rfl := Option.some.inj (he.symm.trans hentry)
  refine ⟨rfl, ?_, fun d => ?_⟩
  · rw [Layout.step_fst, Layout.emission]
    refine List.nodup_append.2 ⟨Layout.nodup_clash _ _, Stmt.nodup_defects_emit, ?_⟩
    rintro d hclash _ hemit rfl
    rw [(Layout.mem_clash_iff.1 hclash).1] at hemit
    exact Stmt.overlappingLabel_not_mem_emit hemit
  · rw [Layout.step_fst, List.mem_append, Layout.mem_clash_iff, Layout.emission,
      Stmt.defects_emit_congr hseen s, or_comm]
    refine or_congr_right (and_congr_right fun _ => ?_)
    constructor
    · rintro ⟨name, a, b, hd, ha, hb, hne⟩
      have hdefines : defines? source (n + 1) = some name := by
        rw [defines?, hs]
        exact hd
      obtain ⟨earlier, hredefines, hearlier⟩ :=
        (binds_nearest_iff hdefines).1 ((hbound name b).1 hb)
      refine ⟨name, earlier, hredefines, ?_⟩
      rw [hearlier, lineAddress?_of_step hentry hd, ha]
      simpa using hne
    · rintro ⟨name, earlier, hredefines, hne⟩
      obtain ⟨s', hs', hd⟩ := Option.bind_eq_some_iff.1 hredefines.defines
      obtain rfl := Option.some.inj (hs.symm.trans hs')
      obtain ⟨a, ha⟩ := Option.isSome_iff_exists.1 (Stmt.isSome_site?_of_defines? hd lay.cursors)
      obtain ⟨b, hb⟩ := Option.isSome_iff_exists.1
        (isSome_lineAddress?_of_defines? hredefines.defines_earlier)
      refine ⟨name, a, b, hd, ha, ?_, ?_⟩
      · exact (hbound name b).2 ((binds_nearest_iff hredefines.defines).2
          ⟨earlier, hredefines, hb⟩)
      · rw [hb, lineAddress?_of_step hentry hd, ha] at hne
        simpa using hne

/-! ## Findings -/

/-- What is found wrong is what is wrong with the statements under the labels as they are in the
    end, and the labels that clash. -/
theorem mem_findings_iff {source : String} {line : Nat} {d : Defect} :
    ⟨d, line⟩ ∈ (assemble source).findings ↔
      (∃ s, statement? source line = some s ∧
        d ∈ (s.emit (assemble source).object.symbols.address? false).defects) ∨
      (d = .overlappingLabel ∧ ∃ name earlier, Redefines source name earlier line ∧
        (assemble source).object.symbols.lineAddress? earlier ≠
          (assemble source).object.symbols.lineAddress? line) := by
  have hmem : ⟨d, line⟩ ∈ (assemble source).findings ↔
      ∃ (n : Nat) (e : Entry), (Pass.settled (program source)).entries[n]? = some e ∧
        e.line.number = line ∧ d ∈ e.defects := by
    simp only [assemble, Pass.findings, List.mem_flatMap, Entry.findings, List.mem_map,
      Finding.mk.injEq]
    constructor
    · rintro ⟨e, he, d', hd, rfl, rfl⟩
      obtain ⟨n, hn⟩ := List.getElem?_of_mem he
      exact ⟨n, e, hn, rfl, hd⟩
    · rintro ⟨n, e, he, rfl, hd⟩
      exact ⟨e, List.mem_of_getElem? he, d, hd, rfl, rfl⟩
  rw [hmem]
  constructor
  · rintro ⟨n, e, he, rfl, hd⟩
    obtain ⟨hnumber, -, hdefects⟩ := defects_settled he
    rw [hnumber]
    exact ((hdefects d).1 hd).imp_left fun h => ⟨_, statement?_of_entry he, h⟩
  · intro h
    have hs : ∃ s, statement? source line = some s := by
      rcases h with ⟨s, hs, -⟩ | ⟨-, name, earlier, hredefines, -⟩
      · exact ⟨s, hs⟩
      · obtain ⟨s, hs, -⟩ := Option.bind_eq_some_iff.1 hredefines.defines
        exact ⟨s, hs⟩
    obtain ⟨s, hs⟩ := hs
    obtain ⟨n, e, rfl, he, rfl⟩ := exists_entry_of_statement? hs
    obtain ⟨hnumber, -, hdefects⟩ := defects_settled he
    refine ⟨n, e, he, hnumber, (hdefects d).2 (h.imp_left ?_)⟩
    rintro ⟨s', hs', hd⟩
    obtain rfl := Option.some.inj (hs.symm.trans hs')
    exact hd

/-- The entries of the settled pass follow the lines of the text. -/
theorem ascending_entries (source : String) :
    (Pass.settled (program source)).entries.Pairwise
      fun e e' => e.line.number < e'.line.number := by
  rw [List.pairwise_iff_getElem]
  intro i j hi hj hij
  rw [(defects_settled (List.getElem?_eq_getElem hi)).1,
    (defects_settled (List.getElem?_eq_getElem hj)).1]
  omega

/-- The findings follow the lines of the text, and none of them is repeated. -/
theorem nodup_findings (source : String) :
    (assemble source).findings.Nodup ∧ (assemble source).findings.Pairwise (·.line ≤ ·.line) := by
  have hfound : ∀ {e : Entry} {f : Finding}, f ∈ e.findings → f.line = e.line.number := by
    intro e f hf
    obtain ⟨d, -, rfl⟩ := List.mem_map.1 hf
    rfl
  rw [assemble, Pass.findings, List.Nodup, List.pairwise_flatMap, List.pairwise_flatMap]
  refine ⟨⟨fun e he => ?_, ?_⟩, fun e he => ?_, ?_⟩
  · obtain ⟨n, hn⟩ := List.getElem?_of_mem he
    exact List.pairwise_map.2 ((defects_settled hn).2.1.imp fun hne h => hne (Finding.mk.inj h).1)
  · refine (ascending_entries source).imp fun hlt f hf f' hf' => ?_
    rintro rfl
    rw [← hfound hf, ← hfound hf'] at hlt
    exact absurd hlt (Nat.lt_irrefl _)
  · exact List.pairwise_map.2 (List.pairwise_of_forall fun _ _ => Nat.le_refl _)
  · refine (ascending_entries source).imp fun hlt f hf f' hf' => ?_
    rw [hfound hf, hfound hf']
    exact Nat.le_of_lt hlt

end Source

/-- Which operands are malformed, which modes are invalid and which labels overlap can be told from
    the statements and the symbols: the findings are those of the program as it settled, each of
    them once for a line, in the order of the lines. -/
theorem findings_iff (source : String) :
    (∀ line, ⟨.malformedOperand, line⟩ ∈ (assemble source).findings ↔
      ∃ s op word, Source.statement? source line = some s ∧ s.Instructs op word ∧
        (assemble source).object.symbols.address? word = none ∧
        Token.int? (Operand.bare word) = none ∧
        (assemble source).object.symbols.address? (Operand.bare word) = none) ∧
    (∀ line, ⟨.invalidMode, line⟩ ∈ (assemble source).findings ↔
      ∃ s op word, Source.statement? source line = some s ∧ s.Instructs op word ∧
        (op = .inc ∨ op = .dec) ∧ (assemble source).object.symbols.address? word = none ∧
        '$' ∈ word.toList) ∧
    (∀ line, ⟨.overlappingLabel, line⟩ ∈ (assemble source).findings ↔
      ∃ name earlier, Source.Redefines source name earlier line ∧
        (assemble source).object.symbols.lineAddress? earlier ≠
          (assemble source).object.symbols.lineAddress? line) ∧
    (assemble source).findings.Nodup ∧ (assemble source).findings.Pairwise (·.line ≤ ·.line) := by
  refine ⟨fun line => ?_, fun line => ?_, fun line => ?_, Source.nodup_findings source⟩
  · rw [Source.mem_findings_iff]
    simp [Stmt.malformedOperand_mem_emit_iff]
  · rw [Source.mem_findings_iff]
    simp [Stmt.invalidMode_mem_emit_iff]
  · rw [Source.mem_findings_iff]
    simp [Stmt.overlappingLabel_not_mem_emit]

/-- The labels `N` and `END` are not known yet where they are used, and `END` comes again. -/
example : (assemble "ADD END\nINC $N\n-1 INC $\nN: 5\nEND: HLT\nDEC $M\nEND: HLT").findings =
    [⟨.invalidMode, 2⟩, ⟨.malformedAddress, 3⟩, ⟨.malformedOperand, 6⟩, ⟨.invalidMode, 6⟩,
      ⟨.overlappingLabel, 7⟩] := by
  decide +kernel

end DecimalMachine
