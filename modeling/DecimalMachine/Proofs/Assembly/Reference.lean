import DecimalMachine.Proofs.Assembly.CodeLines
import DecimalMachine.Proofs.Assembly.Literal
import Mathlib.Algebra.Group.Nat.Defs

set_option autoImplicit false

/-! # Labels as operands

An operand that names a label is the cell of the label as a cell value, that is modulo `2 ^ 32`
(`Cell.toInt_ofAddress`). A text without defects writes something at the cell of every label
(`lt_extent_of_address?`), so the operand denotes the cell itself in a program of at most `2 ^ 31`
cells. No larger memory can be named by a directive, but the cursors go on behind the last cell that
can be, and a label that is defined there becomes a negative operand. -/

namespace DecimalMachine

/-! ## Addresses as cell values -/

theorem Cell.toInt_ofAddress (a : Nat) : (ofAddress a).toInt = (a : Int).bmod (2 ^ 32) :=
  Int32.toInt_ofNat

/-- The cell value that stands for an address is equal to it as long as it is less than `2 ^ 31`. -/
theorem Cell.toInt_ofAddress_eq_iff {a : Nat} : (ofAddress a).toInt = a ↔ a < 2 ^ 31 := by
  constructor
  · intro h
    have hlt := (ofAddress a).toInt_lt
    omega
  · intro h
    rw [toInt_ofAddress]
    exact Int.bmod_eq_of_le (by omega) (by omega)

/-! ## Words that refer to a label -/

/-- A word refers to a label: as it stands, or without the marks of its mode, if it is no label as
    it stands and the marks are not those of a number. -/
inductive Symbols.Refers (s : Symbols) (word : String) : String → Prop
  | whole (h : (s.address? word).isSome) : Refers s word word
  | bare (h : s.address? word = none) (hnumber : Token.int? (Operand.bare word) = none)
      (hbare : (s.address? (Operand.bare word)).isSome) : Refers s word (Operand.bare word)

/-- What a word names that refers to a label is the cell of the label. -/
theorem Symbols.Refers.value_of_names {s : Symbols} {word name : String} {x : Operand}
    (h : s.Refers word name) (hx : s.Names word x) :
    ∃ a, s.address? name = some a ∧ x.value = Cell.ofAddress a := by
  cases h with
  | whole h =>
      cases hx with
      | label ha => exact ⟨_, ha, rfl⟩
      | number hnone _ => exact absurd h (by simp [hnone])
      | reference hnone _ _ => exact absurd h (by simp [hnone])
  | bare h hnumber _ =>
      cases hx with
      | label ha => exact absurd (h.symm.trans ha) (by simp)
      | number _ hv => exact absurd (hnumber.symm.trans hv) (by simp)
      | reference _ _ ha => exact ⟨_, ha, rfl⟩

/-- A program reaches over the cells of all its labels. -/
theorem lt_extent_of_address? {source name : String} {o : Object}
    (hclean : assembleClean source = .ok o) {a : Nat} (ha : o.symbols.address? name = some a) :
    a < o.extent := by
  obtain ⟨⟨_, line⟩, hbinding, rfl⟩ := Option.map_eq_some_iff.1 ha
  have ho : o = (assemble source).object := (assembleClean_eq_ok hclean).1
  rw [ho] at hbinding
  obtain ⟨hlast, hline⟩ := Source.labels_settled.1 hbinding
  rw [← ho] at hline
  obtain ⟨n, e, rfl, he, hwrite⟩ := exists_write_or_label hclean hline
  rcases hwrite with ⟨v, hmem⟩ | hlabel
  · rw [ho]
    exact Object.lt_extent_of_mem (Object.writes_of_settled he hmem)
  · have hdefines := hlast.defines
    rw [Source.defines?, Source.statement?_of_entry he, hlabel] at hdefines
    exact absurd hdefines (by simp [Stmt.defines?])

/-- In a text without defects the cells of an instruction whose operand refers to a label are those
    of its opcode with an operand that is the cell of the label modulo `2 ^ 32`. So the operand is
    equal to the cell of the label just if that is less than `2 ^ 31`, as it is in every program
    of at most `2 ^ 31` cells. -/
theorem decodesFrom_of_reference {source : String} {o : Object}
    (hclean : assembleClean source = .ok o) {n : Nat} {place : Option Place}
    {mnemonic word name : String}
    (hs : (Source.statements source)[n]? = some (.put place (.instr mnemonic word)))
    (hne : Opcode.ofWord? mnemonic ≠ some .hlt) (hrefers : o.symbols.Refers word name) :
    ∃ op x entry a, Opcode.ofWord? mnemonic = some op ∧
      (Pass.settled (Source.program source)).entries[n]? = some entry ∧
      Instr.DecodesFrom (entry.writes.map (·.2)) ⟨op, some x⟩ ∧
      o.symbols.address? name = some a ∧
      x.value.toInt = (a : Int).bmod (2 ^ 32) ∧
      (x.value.toInt = a ↔ a < 2 ^ 31) ∧
      (o.extent ≤ 2 ^ 31 → x.value.toInt = a) := by
  obtain ⟨op, x, entry, hop, hnames, hentry, hdecodes⟩ := decodesFrom_of_clean hclean hs hne
  obtain ⟨a, ha, hvalue⟩ := hrefers.value_of_names hnames
  refine ⟨op, x, entry, a, hop, hentry, hdecodes, ha, ?_, ?_, fun hextent => ?_⟩
  · rw [hvalue, Cell.toInt_ofAddress]
  · rw [hvalue, Cell.toInt_ofAddress_eq_iff]
  · rw [hvalue, Cell.toInt_ofAddress_eq_iff]
    exact Nat.lt_of_lt_of_le (lt_extent_of_address? hclean ha) hextent

/-- The label comes after its use, and the instruction takes two cells for it. -/
theorem decodesFrom_of_reference_forward :
    ∃ x entry,
      (Pass.settled (Source.program "BRN [N]\nHLT\n.data 1000\nN: 5")).entries[0]? = some entry ∧
      Instr.DecodesFrom (entry.writes.map (·.2)) ⟨.brn, some x⟩ ∧ x.value.toInt = 1000 := by
  have hclean : assembleClean "BRN [N]\nHLT\n.data 1000\nN: 5" = .ok _ :=
    assembleClean_of_findings_eq_nil (by decide +kernel)
  have hbrn : Opcode.ofWord? "BRN" = some .brn := Opcode.ofWord?_mnemonic .brn
  have hline : (Source.statements "BRN [N]\nHLT\n.data 1000\nN: 5")[0]? =
      some (.put none (.instr "BRN" "[N]")) := by
    decide +kernel
  have hrefers : (assemble "BRN [N]\nHLT\n.data 1000\nN: 5").object.symbols.Refers "[N]" "N" := by
    have hbare : Operand.bare "[N]" = "N" := by decide +kernel
    rw [← hbare]
    exact .bare (by decide +kernel) (by decide +kernel) (by decide +kernel)
  obtain ⟨op, x, entry, a, hop, hentry, hdecodes, ha, -, -, hexact⟩ :=
    decodesFrom_of_reference hclean hline (by simp [hbrn]) hrefers
  obtain rfl : op = .brn := Option.some.inj (hop.symm.trans hbrn)
  obtain rfl : 1000 = a := by
    have haddress : (assemble "BRN [N]\nHLT\n.data 1000\nN: 5").object.symbols.address? "N" =
        some 1000 := by
      decide +kernel
    exact Option.some.inj (haddress.symm.trans ha)
  exact ⟨x, entry, hentry, hdecodes, hexact (by decide +kernel)⟩

/-- The label is defined behind the last cell that a word can name, and the operand that refers to
    it is negative. -/
theorem decodesFrom_of_reference_behind_last :
    ∃ o entry, assembleClean "2147483647 HLT\nL: HLT\nBRA L" = .ok o ∧
      (Source.statements "2147483647 HLT\nL: HLT\nBRA L")[2]? =
        some (.put none (.instr "BRA" "L")) ∧
      o.symbols.Refers "L" "L" ∧ o.symbols.address? "L" = some 2147483648 ∧
      (Pass.settled (Source.program "2147483647 HLT\nL: HLT\nBRA L")).entries[2]? = some entry ∧
      Instr.DecodesFrom (entry.writes.map (·.2)) ⟨.bra, some ⟨.direct, -2147483648⟩⟩ ∧
      ∀ op x, Instr.DecodesFrom (entry.writes.map (·.2)) ⟨op, some x⟩ →
        x.value.toInt ≠ 2147483648 := by
  have hclean : assembleClean "2147483647 HLT\nL: HLT\nBRA L" = .ok _ :=
    assembleClean_of_findings_eq_nil (by decide +kernel)
  obtain ⟨entry, hentry, hwrites⟩ : ∃ entry,
      (Pass.settled (Source.program "2147483647 HLT\nL: HLT\nBRA L")).entries[2]? = some entry ∧
      entry.writes.map (·.2) = ([9050, -2147483648] : List Cell) :=
    ⟨_, rfl, by decide +kernel⟩
  have hencode : (⟨.bra, some ⟨.direct, -2147483648⟩⟩ : Instr).encodeFrom .packed =
      .ok (.wide 9050 (-2147483648)) := by
    decide +kernel
  have hdecodes := Instr.decodesFrom_words hencode
  refine ⟨_, entry, hclean, by decide +kernel, .whole (by decide +kernel), by decide +kernel,
    hentry, ?_, ?_⟩
  · rw [hwrites]
    exact hdecodes
  · rw [hwrites]
    intro op x hx
    obtain ⟨-, rfl⟩ : op = .bra ∧ x = ⟨.direct, -2147483648⟩ := by
      simpa using hx.unique hdecodes
    decide

end DecimalMachine
