import DecimalMachine.Proofs.Assembly.Walk
import DecimalMachine.Proofs.Instr.Format

set_option autoImplicit false

/-! # Growing addresses

Labels that move up only make more instructions wide, and wide instructions only move labels up.
The one exception would be an operand that changes its mode when its word becomes a label, and the
one way for an address to become small again would be to wrap around; plain labels and addresses
below `2 ^ 32` rule out both (`Lookup.Fits`). Under them a walk is monotone in the labels known
before it (`Layout.walk_mono`). -/

namespace DecimalMachine

/-! ## Plain labels -/

/-- A label that is spelled without the marks of a mode and is not a number. -/
structure Operand.IsPlain (name : String) : Prop where
  dollar : '$' ∉ name.toList
  opening : '[' ∉ name.toList
  closing : ']' ∉ name.toList
  int : Token.int? name = none

instance (name : String) : Decidable (Operand.IsPlain name) :=
  decidable_of_iff
    ('$' ∉ name.toList ∧ '[' ∉ name.toList ∧ ']' ∉ name.toList ∧ Token.int? name = none)
    ⟨fun ⟨hdollar, hopening, hclosing, hint⟩ => ⟨hdollar, hopening, hclosing, hint⟩,
      fun h => ⟨h.dollar, h.opening, h.closing, h.int⟩⟩

namespace Lookup

/-- Every label that is known on the left is known on the right, and no higher on the left. -/
def Le (k k' : Lookup) : Prop :=
  ∀ name a, k name = some a → ∃ b, k' name = some b ∧ a ≤ b

/-- The labels known are plain, and their addresses are as they stand in an operand. -/
structure Fits (k : Lookup) : Prop where
  plain : ∀ name a, k name = some a → Operand.IsPlain name
  lt : ∀ name a, k name = some a → a < 0x100000000

theorem Le.refl (k : Lookup) : k.Le k := by
  intro name a h
  exact ⟨a, h, Nat.le_refl a⟩

end Lookup

namespace Operand

variable {known known' : Lookup} {word : String}

theorem IsPlain.bare_eq (h : IsPlain word) : bare word = word := by
  have hall : ∀ c ∈ word.toList, (c != '$' && c != '[' && c != ']') = true := by
    intro c hc
    have hdollar : c ≠ '$' := fun he => h.dollar (he ▸ hc)
    have hopening : c ≠ '[' := fun he => h.opening (he ▸ hc)
    have hclosing : c ≠ ']' := fun he => h.closing (he ▸ hc)
    simp [hdollar, hopening, hclosing]
  rw [bare, List.filter_eq_self.2 hall, String.ofList_toList]

theorem IsPlain.writtenMode_eq (h : IsPlain word) : writtenMode word = .direct := by
  simp [writtenMode, h.dollar, h.opening]

/-- With plain labels, a word that is a label as it stands is no special case. -/
theorem taken_of_fits (h : known.Fits) (word : String) :
    taken known word = ⟨writtenMode word, (value? known word).getD 0⟩ := by
  unfold taken resolve? standIn
  cases ha : known word with
  | some a =>
      have hplain := h.plain word a ha
      simp [value?, hplain.bare_eq, hplain.int, hplain.writtenMode_eq, ha]
  | none => cases value? known word <;> rfl

end Operand

theorem Lookup.Fits.of_le {k k' : Lookup} (hle : k.Le k') (h : k'.Fits) : k.Fits := by
  constructor
  · intro name a ha
    obtain ⟨b, hb, -⟩ := hle name a ha
    exact h.plain name b hb
  · intro name a ha
    obtain ⟨b, hb, hab⟩ := hle name a ha
    exact Nat.lt_of_le_of_lt hab (h.lt name b hb)

/-! ## Operands that fit -/

/-- A lower address fits wherever a higher one does; from `2 ^ 31` on they are read as negative. -/
theorem Format.packs_ofAddress_of_le {f : Format} {a b : Nat} (hab : a ≤ b) (hb : b < 0x100000000)
    (h : f.packs (Cell.ofAddress b) = true) : f.packs (Cell.ofAddress a) = true := by
  rw [packs_iff] at h ⊢
  have hsmall : b < 0x80000000 := by
    rw [Cell.ofAddress, Int32.toInt_ofNat', Int32.size, Int.bmod_def] at h
    split at h <;> omega
  rw [Cell.ofAddress, Int32.toInt_ofNat_of_lt hsmall] at h
  rw [Cell.ofAddress, Int32.toInt_ofNat_of_lt (Nat.lt_of_le_of_lt hab hsmall)]
  omega

/-- An operand that fits still does if the labels are lower. -/
theorem Operand.packs_taken_of_le {k k' : Lookup} (hle : k.Le k') (hfits : k'.Fits) {f : Format}
    (hf : f.IsProper) {word : String} (h : f.packs (taken k' word).value = true) :
    f.packs (taken k word).value = true := by
  rw [taken_of_fits hfits] at h
  rw [taken_of_fits (.of_le hle hfits)]
  unfold value? at h ⊢
  cases hv : Token.int? (bare word) with
  | some v => simpa [hv] using h
  | none =>
      rw [hv] at h
      cases ha : k (bare word) with
      | none =>
          -- a label that is not known stands for 0
          have hzero : (0 : Cell).toInt < f.limit := Int.ofNat_lt.2 hf.2.1
          exact Format.packs_iff.2 ⟨Int.le_refl 0, hzero⟩
      | some a =>
          obtain ⟨b, hb, hab⟩ := hle _ _ ha
          rw [hb] at h
          exact Format.packs_ofAddress_of_le hab (hfits.lt _ _ hb) h

/-! ## Emissions -/

section Emission

variable {k k' : Lookup}

theorem length_cells_emitInstr_mono (hle : k.Le k') (hfits : k'.Fits) (wide : Bool)
    (mnemonic word : String) :
    (emitInstr k wide mnemonic word).cells.length ≤
      (emitInstr k' wide mnemonic word).cells.length := by
  cases hop : Opcode.ofWord? mnemonic with
  | none => simp [emitInstr, hop]
  | some op =>
      by_cases hne : op = .hlt
      · subst hne
        simp [emitInstr, hop]
      · have hmode : (Operand.taken k word).mode = (Operand.taken k' word).mode := by
          rw [Operand.taken_of_fits hfits, Operand.taken_of_fits (.of_le hle hfits)]
        rw [length_cells_emitInstr hop hne, length_cells_emitInstr hop hne, hmode]
        cases hf : Format.of? op (Operand.taken k' word).mode with
        | none => exact Nat.le_refl 0
        | some f =>
            have hproper := Format.isProper_table _ (Format.mem_table hf)
            have hpacks : f.packs (Operand.taken k' word).value = true →
                f.packs (Operand.taken k word).value = true :=
              Operand.packs_taken_of_le hle hfits hproper
            dsimp only
            split
            · split <;> omega
            · rename_i hnot
              exact Nat.le_of_eq (if_neg fun h => hnot ⟨h.1, hpacks h.2⟩).symm

namespace Stmt

theorem length_cells_emit_mono (hle : k.Le k') (hfits : k'.Fits) (wide : Bool) (s : Stmt) :
    (s.emit k wide).cells.length ≤ (s.emit k' wide).cells.length := by
  by_cases hs : s.isInstr = true
  · obtain ⟨place, mnemonic, word, rfl⟩ := exists_of_isInstr hs
    simp only [emit]
    split
    · exact Nat.le_refl _
    · exact length_cells_emitInstr_mono hle hfits wide mnemonic word
  · have hemit : s.emit k wide = s.emit k' wide :=
      emit_eq_of_not_isInstr (by simpa using hs) k k' wide wide
    exact Nat.le_of_eq (congrArg (·.cells.length) hemit)

theorem isWide_emit_mono (hle : k.Le k') (hfits : k'.Fits) {wide : Bool} {s : Stmt}
    (h : (s.emit k wide).isWide = true) : (s.emit k' wide).isWide = true := by
  have hmono := length_cells_emit_mono hle hfits wide s
  have hmost := length_cells_emit_le k' wide s
  simp only [Emission.isWide, beq_iff_eq] at h ⊢
  omega

end Stmt

end Emission

/-! ## Sites -/

theorem Token.address?_le {w : String} {a : Nat} (h : Token.address? w = some a) :
    a ≤ 0x7fffffff := by
  unfold Token.address? at h
  obtain ⟨v, -, hv⟩ := Option.bind_eq_some_iff.1 h
  unfold Cell.address? at hv
  split at hv
  · have := Int32.toInt_lt v
    simp only [Option.some.injEq] at hv
    omega
  · exact absurd hv (by simp)

/-- A statement stands at the code cursor, at the data cursor, or where it says itself, if that is
    anywhere. -/
theorem Stmt.site?_cases (s : Stmt) :
    (∀ cur, s.site? cur = some cur.code) ∨ (∀ cur, s.site? cur = some cur.data) ∨
      (∀ cur, s.site? cur = none) ∨ ∃ a ≤ 0x7fffffff, ∀ cur, s.site? cur = some a := by
  cases s with
  | blank => exact .inr (.inr (.inl fun _ => rfl))
  | label => exact .inl fun _ => rfl
  | directive name argument => exact .inr (.inr (.inl fun _ => rfl))
  | overlong n => exact .inr (.inr (.inl fun _ => rfl))
  | put place item =>
      rcases place with _ | ⟨name⟩ | ⟨w⟩
      · cases item with
        | value v => exact .inr (.inl fun _ => rfl)
        | instr mnemonic word => exact .inl fun _ => rfl
        | word w =>
            by_cases hw : Opcode.ofWord? w = some .hlt
            · exact .inl fun _ => if_pos hw
            · exact .inr (.inr (.inl fun _ => if_neg hw))
      · cases item with
        | value v => exact .inr (.inl fun _ => rfl)
        | instr mnemonic word => exact .inl fun _ => rfl
        | word w => exact .inl fun _ => rfl
      · cases ha : Token.address? w with
        | none => exact .inr (.inr (.inl fun _ => ha))
        | some a => exact .inr (.inr (.inr ⟨a, Token.address?_le ha, fun _ => ha⟩))

namespace Cursors

variable {cur cur' : Cursors} {s : Stmt}

theorem site?_mono (hcode : cur.code ≤ cur'.code) (hdata : cur.data ≤ cur'.data) (s : Stmt) :
    (s.site? cur = none ∧ s.site? cur' = none) ∨
      ∃ a b, s.site? cur = some a ∧ s.site? cur' = some b ∧ a ≤ b := by
  rcases s.site?_cases with h | h | h | ⟨a, -, h⟩
  · exact .inr ⟨_, _, h cur, h cur', hcode⟩
  · exact .inr ⟨_, _, h cur, h cur', hdata⟩
  · exact .inl ⟨h cur, h cur'⟩
  · exact .inr ⟨a, a, h cur, h cur', Nat.le_refl a⟩

theorem site?_le {b : Nat} (hcode : cur.code ≤ b) (hdata : cur.data ≤ b) (hb : 0x7fffffff ≤ b)
    {a : Nat} (ha : s.site? cur = some a) : a ≤ b := by
  rcases s.site?_cases with h | h | h | ⟨a', ha', h⟩
  · rw [h, Option.some.injEq] at ha
    omega
  · rw [h, Option.some.injEq] at ha
    omega
  · rw [h] at ha
    exact absurd ha (by simp)
  · rw [h, Option.some.injEq] at ha
    omega

theorem getD_site?_le {b : Nat} (hcode : cur.code ≤ b) (hdata : cur.data ≤ b)
    (hb : 0x7fffffff ≤ b) : (s.site? cur).getD 0 ≤ b := by
  cases ha : s.site? cur with
  | none => exact Nat.zero_le b
  | some a => exact site?_le hcode hdata hb ha

/-- Higher cursors stay higher after a statement that emits no less. -/
theorem after_mono (hcode : cur.code ≤ cur'.code) (hdata : cur.data ≤ cur'.data)
    {count count' : Nat} (hcount : count ≤ count') (heq : s.isInstr = false → count = count') :
    (cur.after s count).code ≤ (cur'.after s count').code ∧
      (cur.after s count).data ≤ (cur'.after s count').data := by
  cases s with
  | directive name argument =>
      simp only [after, afterDirective]
      split
      · exact ⟨hcode, Nat.le_refl _⟩
      · exact ⟨Nat.le_refl _, hdata⟩
      · exact ⟨hcode, hdata⟩
  | put place item =>
      rcases site?_mono hcode hdata (.put place item) with ⟨h, h'⟩ | ⟨a, b, h, h', hab⟩
      · simp only [after, h, h']
        exact ⟨hcode, hdata⟩
      · simp only [after, h, h']
        cases item with
        | value v => exact ⟨hcode, Nat.add_le_add hab hcount⟩
        | instr mnemonic word => exact ⟨Nat.add_le_add hab hcount, hdata⟩
        | word w =>
            obtain rfl := heq rfl
            simp only [afterItem]
            split
            · exact ⟨hcode, hdata⟩
            · exact ⟨Nat.add_le_add_right hab _, hdata⟩
  | _ => exact ⟨hcode, hdata⟩

/-- A statement moves the cursors past the cells that it emits, or to an address that it names. -/
theorem after_le {b : Nat} (hcode : cur.code ≤ b) (hdata : cur.data ≤ b) (hb : 0x7fffffff ≤ b)
    (count : Nat) :
    (cur.after s count).code ≤ b + count ∧ (cur.after s count).data ≤ b + count := by
  have hcur : cur.code ≤ b + count ∧ cur.data ≤ b + count := by omega
  cases s with
  | directive name argument =>
      simp only [after, afterDirective]
      split
      · rename_i a _ ha
        exact ⟨hcur.1, by have := Token.address?_le ha; dsimp only; omega⟩
      · rename_i a _ ha
        exact ⟨by have := Token.address?_le ha; dsimp only; omega, hcur.2⟩
      · exact hcur
  | put place item =>
      cases ha : (Stmt.put place item).site? cur with
      | none => simpa only [after, ha] using hcur
      | some a =>
          have hab := Nat.add_le_add_right (site?_le hcode hdata hb ha) count
          simp only [after, ha]
          cases item with
          | value v => exact ⟨hcur.1, hab⟩
          | instr mnemonic word => exact ⟨hab, hcur.2⟩
          | word w =>
              simp only [afterItem]
              split
              · exact hcur
              · exact ⟨hab, hcur.2⟩
  | _ => exact hcur

end Cursors

/-! ## Layouts -/

namespace Layout

/-- The same labels are bound on both sides, and nothing is higher on the left. -/
structure Le (lay lay' : Layout) : Prop where
  code : lay.cursors.code ≤ lay'.cursors.code
  data : lay.cursors.data ≤ lay'.cursors.data
  names : ∀ name, (lay.address? name).isSome = (lay'.address? name).isSome
  labels : Lookup.Le lay.address? lay'.address?

/-- The labels bound are plain, and nothing is higher than `b`. -/
structure Within (lay : Layout) (b : Nat) : Prop where
  code : lay.cursors.code ≤ b
  data : lay.cursors.data ≤ b
  plain : ∀ name a, lay.address? name = some a → Operand.IsPlain name
  labels : ∀ name a, lay.address? name = some a → a ≤ b

theorem Le.refl (lay : Layout) : lay.Le lay :=
  ⟨Nat.le_refl _, Nat.le_refl _, fun _ => rfl, .refl _⟩

variable {before before' : Lookup} {lay lay' : Layout} {line : Line}

theorem Le.bind (h : lay.Le lay') (line : Line) : (lay.bind line).Le (lay'.bind line) := by
  have hsite := Cursors.site?_mono h.code h.data line.stmt
  have hcursors : ∀ l : Layout, (l.bind line).cursors = l.cursors := by
    intro l
    unfold Layout.bind
    split <;> rfl
  refine ⟨?_, ?_, ?_, ?_⟩
  · rw [hcursors, hcursors]
    exact h.code
  · rw [hcursors, hcursors]
    exact h.data
  · intro name
    rw [address?_bind, address?_bind]
    split
    · rcases hsite with ⟨hs, hs'⟩ | ⟨a, b, hs, hs', -⟩ <;> rw [hs, hs']
      rfl
    · exact h.names name
  · intro name a ha
    rw [address?_bind] at ha ⊢
    split
    · rename_i hdefines
      rw [if_pos hdefines] at ha
      rcases hsite with ⟨hs, hs'⟩ | ⟨a', b, hs, hs', hab⟩
      · rw [hs] at ha
        exact absurd ha (by simp)
      · rw [hs, Option.some.injEq] at ha
        exact ⟨b, hs', ha ▸ hab⟩
    · rename_i hdefines
      rw [if_neg hdefines] at ha
      exact h.labels name a ha

/-- What a line sees is no higher on the left. -/
theorem Le.seen (h : lay.Le lay') (hbefore : before.Le before') (line : Line) :
    (lay.seen before line).Le (lay'.seen before' line) := by
  intro name a ha
  have hbind := h.bind line
  rw [Layout.seen, known_apply] at ha ⊢
  cases hb : (lay.bind line).address? name with
  | some b =>
      obtain ⟨b', hb', hle⟩ := hbind.labels name b hb
      rw [hb, Option.some_or, Option.some.injEq] at ha
      rw [hb', Option.some_or]
      exact ⟨b', rfl, ha ▸ hle⟩
  | none =>
      have hb' : (lay'.bind line).address? name = none := by
        rw [← Option.isNone_iff_eq_none, ← Option.not_isSome, ← hbind.names name, hb]
        rfl
      rw [hb, Option.none_or] at ha
      rw [hb', Option.none_or]
      exact hbefore name a ha

theorem Within.bind {b : Nat} (h : lay.Within b) (hb : 0x7fffffff ≤ b)
    (hplain : ∀ name, line.stmt.defines? = some name → Operand.IsPlain name) (name : String)
    (a : Nat) (ha : (lay.bind line).address? name = some a) : Operand.IsPlain name ∧ a ≤ b := by
  rw [address?_bind] at ha
  split at ha
  · rename_i hdefines
    exact ⟨hplain name hdefines, Cursors.site?_le h.code h.data hb ha⟩
  · exact ⟨h.plain name a ha, h.labels name a ha⟩

/-- A line in a layout within bounds sees labels that fit. -/
theorem Within.seen {b : Nat} (h : lay.Within b) (hb : 0x7fffffff ≤ b) (hlt : b < 0x100000000)
    (hplain : ∀ name, line.stmt.defines? = some name → Operand.IsPlain name)
    (hbefore : before.Fits) : (lay.seen before line).Fits := by
  have hbound := h.bind hb hplain
  constructor <;> intro name a ha <;> rw [Layout.seen, known_apply, Option.or_eq_some_iff] at ha
  · rcases ha with ha | ⟨-, ha⟩
    · exact (hbound name a ha).1
    · exact hbefore.plain name a ha
  · rcases ha with ha | ⟨-, ha⟩
    · exact Nat.lt_of_le_of_lt (hbound name a ha).2 hlt
    · exact hbefore.lt name a ha

/-- A line moves everything by two at most, or to an address that it names. -/
theorem Within.step {b : Nat} (h : lay.Within b) (hb : 0x7fffffff ≤ b)
    (hplain : ∀ name, line.stmt.defines? = some name → Operand.IsPlain name) :
    (lay.step before line).2.Within (b + 2) := by
  have hcount := Stmt.length_cells_emit_le ((lay.bind line).known before) line.wide line.stmt
  obtain ⟨hcode, hdata⟩ := Cursors.after_le (s := line.stmt) h.code h.data hb
    (line.stmt.emit ((lay.bind line).known before) line.wide).cells.length
  have hbound := h.bind hb hplain
  refine ⟨Nat.le_trans hcode (by omega), Nat.le_trans hdata (by omega),
    fun name a ha => (hbound name a ha).1, ?_⟩
  intro name a ha
  exact Nat.le_add_right_of_le (hbound name a ha).2

/-- A line that sees lower labels leaves a lower layout. -/
theorem Le.step (h : lay.Le lay') (hbefore : before.Le before')
    (hfits : (lay'.seen before' line).Fits) :
    (lay.step before line).2.Le (lay'.step before' line).2 := by
  have hcount := Stmt.length_cells_emit_mono (h.seen hbefore line) hfits line.wide line.stmt
  obtain ⟨hcode, hdata⟩ := Cursors.after_mono (s := line.stmt) h.code h.data hcount fun hs => by
    rw [Stmt.emit_eq_of_not_isInstr hs _ (lay'.seen before' line) _ line.wide]
  exact ⟨hcode, hdata, (h.bind line).names, (h.bind line).labels⟩

end Layout

end DecimalMachine
