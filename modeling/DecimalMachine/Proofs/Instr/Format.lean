import DecimalMachine.Instr.Format

set_option autoImplicit false

/-! # Formats and words

Every format owns the words of its packed operands and its marker, and no word has two owners
(`apart_table`). Decoding asks the formats one after the other, so the first that answers is the
only one that could, and an instruction is read back from its cells as it was
(`decode_words`). -/

namespace DecimalMachine

namespace Format

/-! ## Owners -/

/-- The words of a format, as numbers. -/
def Owns (f : Format) (n : Int) : Prop :=
  (f.base ≤ n ∧ n < f.base + f.limit) ∨ n = f.marker

/-- A format whose own words are distinct, positive and within the range of a cell. -/
def IsProper (f : Format) : Prop :=
  0 < f.base ∧ 0 < f.limit ∧ f.base + f.limit < 0x80000000 ∧
    0 < f.marker ∧ f.marker < 0x80000000 ∧ (f.marker < f.base ∨ f.base + f.limit ≤ f.marker)

/-- Two formats that own no word in common. -/
def Apart (f g : Format) : Prop :=
  (f.base + f.limit ≤ g.base ∨ g.base + g.limit ≤ f.base) ∧ f.marker ≠ g.marker ∧
    (f.marker < g.base ∨ g.base + g.limit ≤ f.marker) ∧
    (g.marker < f.base ∨ f.base + f.limit ≤ g.marker)

instance (f : Format) : Decidable f.IsProper :=
  inferInstanceAs (Decidable (_ ∧ _))

instance (f g : Format) : Decidable (f.Apart g) :=
  inferInstanceAs (Decidable (_ ∧ _))

theorem not_owns_of_apart {f g : Format} (h : f.Apart g) {n : Int} (hf : f.Owns n) :
    ¬ g.Owns n := by
  unfold Apart at h
  unfold Owns at hf ⊢
  omega

theorem isProper_table : ∀ r ∈ table, r.2.2.IsProper := by
  decide

theorem apart_table : table.Pairwise fun r s => r.2.2.Apart s.2.2 := by
  decide

theorem mem_table {op : Opcode} {mode : Mode} {f : Format} (h : of? op mode = some f) :
    (op, mode, f) ∈ table := by
  refine List.mem_flatMap.2 ⟨op, Opcode.mem_all op, ?_⟩
  exact List.mem_filterMap.2 ⟨mode, Mode.mem_all mode, by simp [h]⟩

/-! ## Words as numbers -/

theorem packs_iff {f : Format} {v : Cell} :
    f.packs v = true ↔ 0 ≤ v.toInt ∧ v.toInt < f.limit := by
  simp [packs]

theorem toInt_packedWord {f : Format} (hf : f.IsProper) {v : Cell} (hv : f.packs v = true) :
    (f.packedWord v).toInt = f.base + v.toInt := by
  obtain ⟨-, -, hlimit, -⟩ := hf
  obtain ⟨hnonneg, hlt⟩ := packs_iff.1 hv
  exact Int32.toInt_ofInt_of_le (by omega) (by omega)

theorem toInt_markerWord {f : Format} (hf : f.IsProper) : f.markerWord.toInt = f.marker := by
  obtain ⟨-, -, -, -, hmarker, -⟩ := hf
  exact Int32.toInt_ofNat_of_lt hmarker

theorem unpack?_packedWord {f : Format} (hf : f.IsProper) {v : Cell} (hv : f.packs v = true) :
    f.unpack? (f.packedWord v) = some v := by
  obtain ⟨hnonneg, hlt⟩ := packs_iff.1 hv
  simp only [unpack?, toInt_packedWord hf hv]
  rw [if_pos (by omega), show (f.base + v.toInt - f.base : Int) = v.toInt by omega,
    Int32.ofInt_toInt]

theorem unpack?_markerWord {f : Format} (hf : f.IsProper) : f.unpack? f.markerWord = none := by
  simp only [unpack?, toInt_markerWord hf]
  unfold IsProper at hf
  exact if_neg (by omega)

end Format

namespace Instr

open Format

/-! ## Reading words -/

/-- A format reads its own words only. -/
theorem Reading.owns_of_inFormat? {op : Opcode} {mode : Mode} {f : Format} (hf : f.IsProper)
    {word : Cell} {r : Reading} (h : Reading.inFormat? word (op, mode, f) = some r) :
    f.Owns word.toInt := by
  simp only [Reading.inFormat?] at h
  split at h
  · rename_i v hv
    simp only [unpack?] at hv
    split at hv
    · exact Or.inl (by omega)
    · exact absurd hv (by simp)
  · split at h
    · rename_i hword
      exact Or.inr (by rw [hword, toInt_markerWord hf])
    · exact absurd h (by simp)

/-- The first element of a list that has an answer gives it, if no two elements have one. -/
theorem findSome?_eq_of_pairwise {α β : Type} {g : α → Option β} {l : List α}
    (hp : l.Pairwise fun a b => (g a).isSome → g b = none) {a : α} {b : β} (ha : a ∈ l)
    (hb : g a = some b) : l.findSome? g = some b := by
  induction l with
  | nil => exact absurd ha List.not_mem_nil
  | cons c rest ih =>
      rw [List.pairwise_cons] at hp
      rcases List.mem_cons.1 ha with rfl | hrest
      · simp [hb]
      · have hc : g c = none := by
          cases hg : g c with
          | none => rfl
          | some b' =>
              have := hp.1 a hrest (by simp [hg])
              simp [this] at hb
        simp [hc, ih hp.2 hrest]

/-- What a format reads in a word is the reading of the word: no other format owns it. -/
theorem read?_eq_of_inFormat? {op : Opcode} {mode : Mode} {f : Format}
    (hf : of? op mode = some f) {word : Cell} {r : Reading}
    (h : Reading.inFormat? word (op, mode, f) = some r) : read? word = some r := by
  have hproper := isProper_table _ (mem_table hf)
  have howns := Reading.owns_of_inFormat? hproper h
  have hne : word ≠ haltWord := by
    rintro rfl
    have hzero : haltWord.toInt = 0 := rfl
    rw [hzero] at howns
    unfold IsProper at hproper
    unfold Owns at howns
    omega
  rw [read?, if_neg hne]
  refine findSome?_eq_of_pairwise ?_ (mem_table hf) h
  refine apart_table.imp_of_mem ?_
  intro r s hr hs hapart hsome
  obtain ⟨r', hr'⟩ := Option.isSome_iff_exists.1 hsome
  have hown := Reading.owns_of_inFormat? (isProper_table _ hr) hr'
  cases hs' : Reading.inFormat? word s with
  | none => rfl
  | some s' =>
      exact absurd (Reading.owns_of_inFormat? (isProper_table _ hs) hs')
        (not_owns_of_apart hapart hown)

theorem read?_packedWord {op : Opcode} {mode : Mode} {f : Format} (hf : of? op mode = some f)
    {v : Cell} (hv : f.packs v = true) :
    read? (f.packedWord v) = some (.whole ⟨op, some ⟨mode, v⟩⟩) := by
  refine read?_eq_of_inFormat? hf ?_
  simp [Reading.inFormat?, unpack?_packedWord (isProper_table _ (mem_table hf)) hv]

theorem read?_markerWord {op : Opcode} {mode : Mode} {f : Format} (hf : of? op mode = some f) :
    read? f.markerWord = some (.marker op mode) := by
  refine read?_eq_of_inFormat? hf ?_
  simp [Reading.inFormat?, unpack?_markerWord (isProper_table _ (mem_table hf))]

/-! ## Decoding what was encoded -/

theorem encodeFrom_eq_ok {least : Width} {op : Opcode} {x : Operand} {e : Encoded}
    (h : (⟨op, some x⟩ : Instr).encodeFrom least = .ok e) :
    ∃ f, of? op x.mode = some f ∧
      ((f.packs x.value = true ∧ e = .packed (f.packedWord x.value)) ∨
        e = .wide f.markerWord x.value) := by
  simp only [encodeFrom] at h
  cases hf : of? op x.mode with
  | none => simp [hf] at h
  | some f =>
      simp only [hf] at h
      refine ⟨f, rfl, ?_⟩
      split at h
      · rename_i hp
        exact Or.inl ⟨hp.2, (Except.ok.inj h).symm⟩
      · exact Or.inr (Except.ok.inj h).symm

/-- An instruction with an operand is decoded from its cells, in either width. -/
theorem decode_words {least : Width} {op : Opcode} {x : Operand} {e : Encoded}
    (h : (⟨op, some x⟩ : Instr).encodeFrom least = .ok e) {word : Cell}
    {next : Except Fault Cell} (hword : e.words[0]? = some word)
    (hnext : ∀ v, e.words[1]? = some v → next = .ok v) :
    decode word next = .ok (⟨op, some x⟩, e.width) := by
  obtain ⟨f, hf, ⟨hv, rfl⟩ | rfl⟩ := encodeFrom_eq_ok h
  · obtain rfl : f.packedWord x.value = word := by simpa [Encoded.words] using hword
    simp [decode, read?_packedWord hf hv, Encoded.width]
  · obtain rfl : f.markerWord = word := by simpa [Encoded.words] using hword
    rw [hnext x.value rfl]
    simp [decode, read?_markerWord hf, Encoded.width, Except.map]

end Instr

end DecimalMachine
