import DecimalMachine.Assembly.Emission

set_option autoImplicit false

/-! # What decides an emission

How many cells a statement emits depends on little of what is known about labels. For an
instruction it is the mode of its operand, which only the *names* of the known labels decide, and
whether it ends up wide (`length_emit_congr`): the cells that labels name enter through that one
bit. A statement is wide only as an instruction, and no statement emits more than two cells. -/

namespace DecimalMachine

/-! ## Operands -/

namespace Operand

/-- The operand that an instruction is assembled with: the one its word names, or a zero. -/
def taken (known : Lookup) (word : String) : Operand :=
  (resolve? known word).getD (standIn word)

/-- The defect of a word that names no operand. -/
def malformed (known : Lookup) (word : String) : List Defect :=
  if (resolve? known word).isNone then [.malformedOperand] else []

theorem mode_taken (known : Lookup) (word : String) :
    (taken known word).mode = if (known word).isSome then .direct else writtenMode word := by
  unfold taken resolve?
  cases hk : known word with
  | some a => rfl
  | none => cases hv : value? known word <;> rfl

/-- The mode of an operand depends on the names of the known labels only. -/
theorem mode_taken_congr {known known' : Lookup}
    (h : ∀ name, (known name).isSome = (known' name).isSome) (word : String) :
    (taken known word).mode = (taken known' word).mode := by
  rw [mode_taken, mode_taken, h word]

end Operand

/-! ## Instructions -/

section Instr

variable {mnemonic : String} {op : Opcode}

/-- An instruction with an operand emits its encoding, if it has one. -/
theorem emitInstr_eq (hop : Opcode.ofWord? mnemonic = some op) (hne : op ≠ .hlt)
    (known : Lookup) (wide : Bool) (word : String) :
    emitInstr known wide mnemonic word =
      match (⟨op, some (Operand.taken known word)⟩ : Instr).encodeFrom
          (if wide then .wide else .packed) with
      | .ok e => { cells := e.words, defects := Operand.malformed known word }
      | .error d => { defects := Operand.malformed known word ++ [d] } := by
  simp only [emitInstr, hop]
  cases op with
  | hlt => exact absurd rfl hne
  | _ => rfl

/-- An instruction emits nothing if its mode has no format, one cell if its operand fits in and
    nothing makes it wide, and two cells otherwise. -/
theorem length_cells_emitInstr (hop : Opcode.ofWord? mnemonic = some op) (hne : op ≠ .hlt)
    (known : Lookup) (wide : Bool) (word : String) :
    (emitInstr known wide mnemonic word).cells.length =
      match Format.of? op (Operand.taken known word).mode with
      | none => 0
      | some f => if wide = false ∧ f.packs (Operand.taken known word).value then 1 else 2 := by
  have hleast : (if wide then Width.wide else .packed) = .packed ↔ wide = false := by
    cases wide <;> simp
  rw [emitInstr_eq hop hne]
  simp only [Instr.encodeFrom, hleast]
  cases hf : Format.of? op (Operand.taken known word).mode with
  | none => rfl
  | some f =>
      by_cases hp : wide = false ∧ f.packs (Operand.taken known word).value <;>
        simp [hp, Encoded.words]

/-- An instruction without defects has an operand, and its cells are those of its encoding. -/
theorem cells_emitInstr_of_clean (hop : Opcode.ofWord? mnemonic = some op) (hne : op ≠ .hlt)
    {known : Lookup} {wide : Bool} {word : String}
    (h : (emitInstr known wide mnemonic word).defects = []) :
    ∃ x e, Operand.resolve? known word = some x ∧
      (⟨op, some x⟩ : Instr).encodeFrom (if wide then .wide else .packed) = .ok e ∧
      (emitInstr known wide mnemonic word).cells = e.words := by
  rw [emitInstr_eq hop hne] at h ⊢
  cases he : (⟨op, some (Operand.taken known word)⟩ : Instr).encodeFrom
      (if wide then .wide else .packed) with
  | error d => simp [he] at h
  | ok e =>
      cases hx : Operand.resolve? known word with
      | none => simp [he, Operand.malformed, hx] at h
      | some x =>
          have htaken : Operand.taken known word = x := by
            simp [Operand.taken, hx]
          exact ⟨x, e, rfl, htaken ▸ he, rfl⟩

/-- To keep an instruction wide changes nothing while it is wide anyway. -/
theorem emitInstr_true_of_isWide (hop : Opcode.ofWord? mnemonic = some op) (hne : op ≠ .hlt)
    {known : Lookup} {wide : Bool} {word : String}
    (h : (emitInstr known wide mnemonic word).isWide = true) :
    emitInstr known true mnemonic word = emitInstr known wide mnemonic word := by
  have hencode : (⟨op, some (Operand.taken known word)⟩ : Instr).encodeFrom .wide =
      (⟨op, some (Operand.taken known word)⟩ : Instr).encodeFrom
        (if wide then .wide else .packed) := by
    rw [Emission.isWide, length_cells_emitInstr hop hne] at h
    cases wide with
    | true => rfl
    | false =>
        simp only [Instr.encodeFrom]
        cases hf : Format.of? op (Operand.taken known word).mode with
        | none => rfl
        | some f =>
            cases hp : f.packs (Operand.taken known word).value with
            | true => simp [hf, hp] at h
            | false => simp [hp]
  rw [emitInstr_eq hop hne, emitInstr_eq hop hne, if_pos rfl, hencode]

end Instr

theorem length_cells_emitInstr_le (known : Lookup) (wide : Bool) (mnemonic word : String) :
    (emitInstr known wide mnemonic word).cells.length ≤ 2 := by
  cases hop : Opcode.ofWord? mnemonic with
  | none => simp [emitInstr, hop, Emission.ofDefect]
  | some op =>
      by_cases hne : op = .hlt
      · subst hne
        simp [emitInstr, hop, Emission.ofCell]
      · rw [length_cells_emitInstr hop hne]
        split
        · omega
        · split <;> omega

/-- Two emissions of an instruction are equally long if its modes have a format in both or in
    neither of them, and both or neither of them end up wide. -/
theorem length_emitInstr_congr {known known' : Lookup} {wide wide' : Bool} {mnemonic word : String}
    (hformat : ∀ op, Opcode.ofWord? mnemonic = some op → op ≠ .hlt →
      (Format.of? op (Operand.taken known word).mode = none ↔
        Format.of? op (Operand.taken known' word).mode = none))
    (hwide : (wide || (emitInstr known wide mnemonic word).isWide) =
      (wide' || (emitInstr known' wide' mnemonic word).isWide)) :
    (emitInstr known wide mnemonic word).cells.length =
      (emitInstr known' wide' mnemonic word).cells.length := by
  cases hop : Opcode.ofWord? mnemonic with
  | none => simp [emitInstr, hop]
  | some op =>
      by_cases hne : op = .hlt
      · subst hne
        simp [emitInstr, hop]
      · have hmodes := hformat op hop hne
        simp only [Emission.isWide, length_cells_emitInstr hop hne] at hwide ⊢
        cases hf : Format.of? op (Operand.taken known word).mode with
        | none => rw [hmodes.1 hf]
        | some f =>
            cases hf' : Format.of? op (Operand.taken known' word).mode with
            | none => exact absurd (hmodes.2 hf') (by simp [hf])
            | some f' =>
                -- each length is one or two, and `hwide` says on both sides which of them
                simp only [hf, hf'] at hwide ⊢
                cases wide <;> cases wide' <;> grind

/-! ## Statements -/

namespace Stmt

theorem exists_of_isInstr {s : Stmt} (h : s.isInstr = true) :
    ∃ place mnemonic word, s = put place (.instr mnemonic word) := by
  cases s with
  | put place item =>
      cases item with
      | instr mnemonic word => exact ⟨place, mnemonic, word, rfl⟩
      | _ => simp [isInstr] at h
  | _ => simp [isInstr] at h

theorem length_cells_emitWord_le (place : Option Place) (w : String) :
    (emitWord place w).cells.length ≤ 1 := by
  have hite : ∀ b : Bool, (if b then [haltWord] else []).length ≤ 1 := by
    intro b
    cases b <;> simp
  exact hite _

/-- No statement emits more than two cells. -/
theorem length_cells_emit_le (known : Lookup) (wide : Bool) (s : Stmt) :
    (s.emit known wide).cells.length ≤ 2 := by
  cases s with
  | blank => simp [emit]
  | label => simp [emit]
  | overlong => simp [emit, Emission.ofDefect]
  | directive name argument =>
      simp only [emit]
      split
      · simp [Emission.ofDefect]
      · split <;> simp [Emission.ofDefect]
  | put place item =>
      simp only [emit]
      split
      · simp [Emission.ofDefect]
      · cases item with
        | value v => simp [emitItem, Emission.ofCell]
        | word w => exact Nat.le_succ_of_le (length_cells_emitWord_le place w)
        | instr mnemonic word => exact length_cells_emitInstr_le known wide mnemonic word

/-- What a statement emits is the same whatever is known, unless it is an instruction. -/
theorem emit_eq_of_not_isInstr {s : Stmt} (hs : s.isInstr = false) (known known' : Lookup)
    (wide wide' : Bool) : s.emit known wide = s.emit known' wide' := by
  cases s with
  | put place item =>
      cases item with
      | instr => simp [isInstr] at hs
      | _ => rfl
  | _ => rfl

/-- Only an instruction can be wide. -/
theorem isInstr_of_isWide_emit {known : Lookup} {wide : Bool} {s : Stmt}
    (h : (s.emit known wide).isWide = true) : s.isInstr = true := by
  cases s with
  | blank => simp [emit, Emission.isWide] at h
  | label => simp [emit, Emission.isWide] at h
  | overlong => simp [emit, Emission.isWide, Emission.ofDefect] at h
  | directive name argument =>
      simp only [emit] at h
      split at h
      · simp [Emission.isWide, Emission.ofDefect] at h
      · split at h <;> simp [Emission.isWide, Emission.ofDefect] at h
  | put place item =>
      cases item with
      | instr => rfl
      | value v =>
          simp only [emit] at h
          split at h <;> simp [emitItem, Emission.isWide, Emission.ofDefect, Emission.ofCell] at h
      | word w =>
          simp only [emit] at h
          split at h
          · simp [Emission.isWide, Emission.ofDefect] at h
          · have := length_cells_emitWord_le place w
            simp only [emitItem, Emission.isWide, beq_iff_eq] at h
            omega

/-- The mode of an instruction has a format under both of two look-ups or under neither of them. An
    instruction that stands nowhere emits nothing, so nothing is said about it. -/
def SameFormats (known known' : Lookup) : Stmt → Prop
  | put place (.instr mnemonic word) => isMisplaced place = false →
      ∀ op, Opcode.ofWord? mnemonic = some op → op ≠ .hlt →
        (Format.of? op (Operand.taken known word).mode = none ↔
          Format.of? op (Operand.taken known' word).mode = none)
  | _ => True

theorem sameFormats_of_names {known known' : Lookup}
    (hnames : ∀ name, (known name).isSome = (known' name).isSome) (s : Stmt) :
    s.SameFormats known known' := by
  unfold SameFormats
  split
  · intro _ op _ _
    rw [Operand.mode_taken_congr hnames]
  · trivial

/-- Two emissions of a statement are equally long if it has the same formats in both, and both or
    neither of them end up wide. -/
theorem length_emit_congr {known known' : Lookup} {wide wide' : Bool} {s : Stmt}
    (hformats : s.SameFormats known known')
    (hwide : (wide || (s.emit known wide).isWide) = (wide' || (s.emit known' wide').isWide)) :
    (s.emit known wide).cells.length = (s.emit known' wide').cells.length := by
  by_cases hs : s.isInstr = true
  · obtain ⟨place, mnemonic, word, rfl⟩ := exists_of_isInstr hs
    simp only [emit] at hwide ⊢
    split
    · rfl
    · rename_i hplace
      simp only [hplace] at hwide
      exact length_emitInstr_congr (hformats (Bool.eq_false_iff.2 hplace)) hwide
  · rw [emit_eq_of_not_isInstr (by simpa using hs) known known' wide wide']

theorem emit_true_of_isWide {known : Lookup} {wide : Bool} {s : Stmt}
    (h : (s.emit known wide).isWide = true) : s.emit known true = s.emit known wide := by
  obtain ⟨place, mnemonic, word, rfl⟩ := exists_of_isInstr (isInstr_of_isWide_emit h)
  simp only [emit] at h ⊢
  split
  · rfl
  · rename_i hplace
    simp only [hplace] at h
    cases hop : Opcode.ofWord? mnemonic with
    | none => simp only [emitItem, emitInstr, hop]
    | some op =>
        by_cases hne : op = .hlt
        · subst hne
          simp only [emitItem, emitInstr, hop]
        · exact emitInstr_true_of_isWide hop hne h

end Stmt

end DecimalMachine
