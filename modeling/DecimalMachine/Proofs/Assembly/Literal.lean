import DecimalMachine.Proofs.Assembly.Monotone
import DecimalMachine.Proofs.Machine.Program
import DecimalMachine.Proofs.Source.Listing

set_option autoImplicit false

/-! # Literals as operands

An operand that is spelled as an integer in some mode stands for that integer in that mode, unless
the word as a whole, marks and all, is the name of a label: labels come first. No plain label is
spelled like a literal (`Operand.not_isPlain_mark`), but whatever a line has in front of a colon is
taken for a label, and so `$5:` makes `$5` the name of a cell. -/

namespace DecimalMachine

/-! ## Cells of an instruction -/

/-- Some cells are those of an instruction, in the width that it is decoded in. -/
def Instr.DecodesFrom (cells : List Cell) (i : Instr) : Prop :=
  ∃ word width, cells[0]? = some word ∧ cells.length = width.cells ∧
    ∀ next, (∀ v, cells[1]? = some v → next = .ok v) → Instr.decode word next = .ok (i, width)

/-- Cells are those of one instruction at most. -/
theorem Instr.DecodesFrom.unique {cells : List Cell} {i j : Instr} (hi : DecodesFrom cells i)
    (hj : DecodesFrom cells j) : i = j := by
  obtain ⟨word, width, hword, -, hdecode⟩ := hi
  obtain ⟨word', width', hword', -, hdecode'⟩ := hj
  obtain rfl : word = word' := Option.some.inj (hword.symm.trans hword')
  -- both are decoded from the same two cells
  have hnext : ∀ v, cells[1]? = some v →
      (.ok (cells[1]?.getD 0) : Except Fault Cell) = .ok v := by
    intro v hv
    rw [hv, Option.getD_some]
  have hsame := (hdecode _ hnext).symm.trans (hdecode' _ hnext)
  exact (Prod.mk.inj (Except.ok.inj hsame)).1

theorem Instr.decodesFrom_words {least : Width} {op : Opcode} {x : Operand} {e : Encoded}
    (h : (⟨op, some x⟩ : Instr).encodeFrom least = .ok e) :
    DecodesFrom e.words ⟨op, some x⟩ := by
  obtain ⟨first, hfirst⟩ : ∃ first, e.words[0]? = some first := by
    cases e <;> exact ⟨_, rfl⟩
  exact ⟨first, e.width, hfirst, e.length_words, fun next => Instr.decode_words h hfirst⟩

/-- The cells that an instruction of a clean text emits are those of its opcode with the operand
    that its word names in the end. -/
theorem decodesFrom_of_clean {source : String} {o : Object} (h : assembleClean source = .ok o)
    {n : Nat} {place : Option Place} {mnemonic word : String}
    (hs : (Source.statements source)[n]? = some (.put place (.instr mnemonic word)))
    (hne : Opcode.ofWord? mnemonic ≠ some .hlt) :
    ∃ op x entry, Opcode.ofWord? mnemonic = some op ∧ o.symbols.Names word x ∧
      (Pass.settled (Source.program source)).entries[n]? = some entry ∧
      Instr.DecodesFrom (entry.writes.map (·.2)) ⟨op, some x⟩ := by
  obtain ⟨entry, cur, wide, hentry, -, -, hwrites, hdefects, -⟩ := entry_of_clean h hs
  obtain ⟨-, hemit⟩ := Stmt.isSome_site?_of_clean hdefects cur
  rw [hemit] at hwrites hdefects
  simp only [Stmt.emitItem] at hwrites hdefects
  cases hop : Opcode.ofWord? mnemonic with
  | none => simp [emitInstr, hop, Emission.ofDefect] at hdefects
  | some op =>
      have hhalt : op ≠ .hlt := by
        rintro rfl
        exact hne hop
      obtain ⟨x, e, hx, he, hcells⟩ := cells_emitInstr_of_clean hop hhalt hdefects
      have hwords : entry.writes.map (·.2) = e.words := by
        rw [hwrites, hcells, List.map_map]
        exact List.zipIdx_map_fst _ _
      refine ⟨op, x, entry, rfl, Symbols.names_of_resolve? hx, hentry, ?_⟩
      rw [hwords]
      exact Instr.decodesFrom_words he

/-! ## Literals -/

section Literal

variable {t : String} {v : Cell} {mode : Mode}

/-- What a literal names: the integer that it spells, unless it is a label. -/
theorem Symbols.Names.eq_of_literal {s : Symbols} {x : Operand} (hv : Token.int? t = some v)
    (h : s.Names (mode.mark t) x) :
    x = match s.address? (mode.mark t) with
      | some a => ⟨.direct, Cell.ofAddress a⟩
      | none => ⟨mode, v⟩ := by
  cases h with
  | label ha => rw [ha]
  | number hnone hnumber =>
      rw [Operand.bare_mark hv, hv] at hnumber
      rw [hnone, Operand.writtenMode_mark hv, Option.some.inj hnumber]
  | reference _ hnumber _ =>
      rw [Operand.bare_mark hv, hv] at hnumber
      exact absurd hnumber (by simp)

/-- No plain label is spelled like a literal. -/
theorem Operand.not_isPlain_mark (hv : Token.int? t = some v) : ¬ IsPlain (mode.mark t) := by
  intro h
  cases mode with
  | immediate => exact h.dollar (by simp [Mode.mark])
  | indirect => exact h.opening (by simp [Mode.mark])
  | direct => exact absurd (hv.symm.trans h.int) (by simp)

/-- If all labels of a text are plain, none of its literals is a label. -/
theorem address?_mark_eq_none {source : String} {o : Object} (h : assembleClean source = .ok o)
    (hplain : ∀ s ∈ Source.statements source, ∀ name ∈ s.defines?, Operand.IsPlain name)
    (hv : Token.int? t = some v) : o.symbols.address? (mode.mark t) = none := by
  obtain ⟨rfl, -⟩ := assembleClean_eq_ok h
  cases ha : (Pass.settled (Source.program source)).symbols.address? (mode.mark t) with
  | none => exact ha
  | some a =>
      have hdefined := Source.isSome_address?_settled source (mode.mark t)
      -- what a settled table has an address for is defined by some statement
      rw [ha, Option.isSome_some] at hdefined
      obtain ⟨s, hs, hname⟩ := List.any_eq_true.1 hdefined.symm
      exact absurd (hplain s hs _ (of_decide_eq_true hname)) (Operand.not_isPlain_mark hv)

end Literal

/-- In a clean text the cells of an instruction whose operand is spelled as an integer are those of
    that integer in that mode, as long as the operand is not a label as it stands; then they are
    those of the cell of the label. In a text whose labels are plain it never is one. -/
theorem decodesFrom_of_literal {source : String} {o : Object} (h : assembleClean source = .ok o)
    {n : Nat} {place : Option Place} {mnemonic t : String} {mode : Mode} {v : Cell}
    (hs : (Source.statements source)[n]? = some (.put place (.instr mnemonic (mode.mark t))))
    (hne : Opcode.ofWord? mnemonic ≠ some .hlt) (hv : Token.int? t = some v) :
    ∃ op entry, Opcode.ofWord? mnemonic = some op ∧
      (Pass.settled (Source.program source)).entries[n]? = some entry ∧
      (o.symbols.address? (mode.mark t) = none →
        Instr.DecodesFrom (entry.writes.map (·.2)) ⟨op, some ⟨mode, v⟩⟩) ∧
      (∀ a, o.symbols.address? (mode.mark t) = some a →
        Instr.DecodesFrom (entry.writes.map (·.2)) ⟨op, some ⟨.direct, Cell.ofAddress a⟩⟩) ∧
      ((∀ s ∈ Source.statements source, ∀ name ∈ s.defines?, Operand.IsPlain name) →
        o.symbols.address? (mode.mark t) = none) := by
  obtain ⟨op, x, entry, hop, hnames, hentry, hdecodes⟩ := decodesFrom_of_clean h hs hne
  have hx := hnames.eq_of_literal hv
  refine ⟨op, entry, hop, hentry, ?_, ?_, fun hplain => address?_mark_eq_none h hplain hv⟩
  · intro hnone
    rw [hnone] at hx
    rwa [hx] at hdecodes
  · intro a ha
    rw [ha] at hx
    rwa [hx] at hdecodes

/-- A literal with a sign and leading zeros, in a text whose labels are plain. -/
theorem decodesFrom_of_literal_signed :
    ∃ entry, (Pass.settled (Source.program "X: 5\nADD [+007]\nHLT")).entries[1]? = some entry ∧
      Instr.DecodesFrom (entry.writes.map (·.2)) ⟨.add, some ⟨.indirect, 7⟩⟩ := by
  have hclean : assembleClean "X: 5\nADD [+007]\nHLT" = .ok _ :=
    assembleClean_of_findings_eq_nil (by decide +kernel)
  have hline : (Source.statements "X: 5\nADD [+007]\nHLT")[1]? =
      some (.put none (.instr "ADD" (Mode.indirect.mark "+007"))) := by
    decide +kernel
  have hvalue : Token.int? "+007" = some 7 := by decide +kernel
  have hadd : Opcode.ofWord? "ADD" = some .add := Opcode.ofWord?_mnemonic .add
  obtain ⟨op, entry, hop, hentry, hliteral, -, hplain⟩ :=
    decodesFrom_of_literal hclean hline (by simp [hadd]) hvalue
  obtain rfl : op = .add := Option.some.inj (hop.symm.trans hadd)
  exact ⟨entry, hentry, hliteral (hplain (by decide +kernel))⟩

/-- The first line makes the literal on the second one a label. The text is clean, and the cell of
    the second line is that of another operand, which is the cell of the label. -/
theorem decodesFrom_of_literal_shadowed :
    ∃ o entry, assembleClean "$5: HLT\nADD $5" = .ok o ∧
      (Source.statements "$5: HLT\nADD $5")[1]? =
        some (.put none (.instr "ADD" (Mode.immediate.mark "5"))) ∧
      Token.int? "5" = some 5 ∧
      (Pass.settled (Source.program "$5: HLT\nADD $5")).entries[1]? = some entry ∧
      Instr.DecodesFrom (entry.writes.map (·.2)) ⟨.add, some ⟨.direct, 0⟩⟩ ∧
      ¬ Instr.DecodesFrom (entry.writes.map (·.2)) ⟨.add, some ⟨.immediate, 5⟩⟩ := by
  have hclean : assembleClean "$5: HLT\nADD $5" = .ok _ :=
    assembleClean_of_findings_eq_nil (by decide +kernel)
  obtain ⟨entry, hentry, hwrites⟩ : ∃ entry,
      (Pass.settled (Source.program "$5: HLT\nADD $5")).entries[1]? = some entry ∧
      entry.writes.map (·.2) = [3000] :=
    ⟨_, rfl, by decide +kernel⟩
  have hencode : (⟨.add, some ⟨.direct, 0⟩⟩ : Instr).encodeFrom .packed = .ok (.packed 3000) := by
    decide +kernel
  have hdirect := Instr.decodesFrom_words hencode
  refine ⟨_, entry, hclean, by decide +kernel, by decide +kernel, hentry, ?_, ?_⟩
  · rw [hwrites]
    exact hdirect
  · rw [hwrites]
    intro himmediate
    exact absurd (himmediate.unique hdirect) (by decide)

end DecimalMachine
