import DecimalMachine.Proofs.Instr.Format

set_option autoImplicit false

/-! # Instructions and their words

An instruction stands in memory packed or wide. Either way its first word has one reading, which
is that instruction (`read?_eq_whole_iff`) or, for a marker, every instruction of its opcode and
mode (`read?_eq_marker_iff`). So decoding undoes both ways of encoding, and the words without a
reading are exactly those with which no instruction starts (`read?_eq_none_iff`). -/

namespace DecimalMachine

namespace Format

/-! ## Words of a format -/

theorem of?_of_mem_table {op : Opcode} {mode : Mode} {f : Format} (h : (op, mode, f) ∈ table) :
    of? op mode = some f := by
  obtain ⟨op', -, hrow⟩ := List.mem_flatMap.1 h
  obtain ⟨mode', -, hmap⟩ := List.mem_filterMap.1 hrow
  obtain ⟨g, hg, heq⟩ := Option.map_eq_some_iff.1 hmap
  obtain ⟨rfl, rfl, rfl⟩ : op' = op ∧ mode' = mode ∧ g = f := by simpa using heq
  exact hg

/-- The modes without a format. -/
theorem of?_eq_none_iff {op : Opcode} {mode : Mode} :
    of? op mode = none ↔ op = .hlt ∨ (mode = .immediate ∧ (op = .inc ∨ op = .dec)) := by
  cases op <;> cases mode <;> decide

/-- A word that a format unpacks is the one that the format packs the operand into. -/
theorem packedWord_of_unpack? {f : Format} (hf : f.IsProper) {word v : Cell}
    (h : f.unpack? word = some v) : f.packs v = true ∧ f.packedWord v = word := by
  simp only [unpack?] at h
  split at h
  · rename_i hrange
    obtain ⟨-, -, hlimit, -⟩ := hf
    obtain rfl := Option.some.inj h
    have hv : (Int32.ofInt (word.toInt - f.base)).toInt = word.toInt - f.base :=
      Int32.toInt_ofInt_of_le (by omega) (by omega)
    refine ⟨packs_iff.2 (by rw [hv]; exact hrange), ?_⟩
    rw [packedWord, hv, show (f.base + (word.toInt - f.base) : Int) = word.toInt by omega,
      Int32.ofInt_toInt]
  · exact absurd h (by simp)

end Format

theorem Encoded.exists_first_word (e : Encoded) : ∃ word, e.words[0]? = some word := by
  cases e <;> exact ⟨_, rfl⟩

namespace Instr

open Format

/-! ## Encodings -/

/-- The cells of an instruction, in one width or the other. -/
def EncodesAs (i : Instr) (e : Encoded) : Prop :=
  i.encode = .ok e ∨ i.encodeWide = .ok e

/-- The instructions without an encoding, and what is wrong with them: only `HLT` stands without
    an operand, `HLT` takes none, and `INC` and `DEC` take no immediate one. -/
inductive Refused : Instr → Defect → Prop
  | missing {op : Opcode} (h : op ≠ .hlt) : Refused ⟨op, none⟩ .missingOperand
  | halt (x : Operand) : Refused ⟨.hlt, some x⟩ .invalidMode
  | inc (v : Cell) : Refused ⟨.inc, some ⟨.immediate, v⟩⟩ .invalidMode
  | dec (v : Cell) : Refused ⟨.dec, some ⟨.immediate, v⟩⟩ .invalidMode

theorem encodesAs_iff {i : Instr} {e : Encoded} :
    i.EncodesAs e ↔ ∃ least, i.encodeFrom least = .ok e := by
  constructor
  · rintro (h | h)
    · exact ⟨.packed, h⟩
    · exact ⟨.wide, h⟩
  · rintro ⟨_ | _, h⟩
    · exact Or.inl h
    · exact Or.inr h

theorem encodeFrom_none {least : Width} {op : Opcode} {e : Encoded}
    (h : (⟨op, none⟩ : Instr).encodeFrom least = .ok e) : op = .hlt ∧ e = .packed haltWord := by
  simp only [encodeFrom] at h
  split at h
  · rename_i hop
    exact ⟨hop, (Except.ok.inj h).symm⟩
  · exact absurd h (by simp)

/-- Encoding fails in the same cases in either width. -/
theorem encodeFrom_eq_error_iff {least : Width} {i : Instr} {d : Defect} :
    i.encodeFrom least = .error d ↔ i.Refused d := by
  obtain ⟨op, _ | x⟩ := i
  · constructor
    · intro h
      simp only [encodeFrom] at h
      split at h
      · exact absurd h (by simp)
      · rename_i hop
        obtain rfl := Except.error.inj h
        exact .missing hop
    · rintro ⟨hop⟩
      simp [encodeFrom, hop]
  · constructor
    · intro h
      simp only [encodeFrom] at h
      cases hf : of? op x.mode with
      | none =>
          rw [hf] at h
          obtain rfl := Except.error.inj h
          obtain ⟨mode, v⟩ := x
          rcases of?_eq_none_iff.1 hf with rfl | ⟨rfl, rfl | rfl⟩
          · exact .halt _
          · exact .inc v
          · exact .dec v
      | some f =>
          simp only [hf] at h
          split at h <;> exact absurd h (by simp)
    · intro h
      obtain ⟨rfl, hf⟩ : d = .invalidMode ∧ of? op x.mode = none := by
        rw [of?_eq_none_iff]
        cases h with
        | halt => exact ⟨rfl, Or.inl rfl⟩
        | inc => exact ⟨rfl, Or.inr ⟨rfl, Or.inl rfl⟩⟩
        | dec => exact ⟨rfl, Or.inr ⟨rfl, Or.inr rfl⟩⟩
      simp [encodeFrom, hf]

/-- The width of an instruction with an operand: that of its limit, if nothing widens it. -/
theorem width_of_encodeFrom {least : Width} {op : Opcode} {x : Operand} {e : Encoded}
    (h : (⟨op, some x⟩ : Instr).encodeFrom least = .ok e) :
    ∃ f, of? op x.mode = some f ∧
      (e.width = .packed ↔ least = .packed ∧ 0 ≤ x.value.toInt ∧ x.value.toInt < f.limit) := by
  simp only [encodeFrom] at h
  cases hf : of? op x.mode with
  | none => simp [hf] at h
  | some f =>
      refine ⟨f, rfl, ?_⟩
      rw [← packs_iff]
      simp only [hf] at h
      split at h
      · rename_i hp
        obtain rfl := Except.ok.inj h
        simpa [Encoded.width] using hp
      · rename_i hp
        obtain rfl := Except.ok.inj h
        simpa [Encoded.width] using hp

/-! ## The reading of a first word -/

theorem read?_haltWord : read? haltWord = some (.whole halt) := by
  exact if_pos rfl

/-- A reading is found in the format of its opcode and mode, unless it is a halt. -/
theorem exists_inFormat? {word : Cell} (hne : word ≠ haltWord) {r : Reading}
    (h : read? word = some r) :
    ∃ op mode f, of? op mode = some f ∧ Reading.inFormat? word (op, mode, f) = some r := by
  rw [read?, if_neg hne] at h
  obtain ⟨⟨op, mode, f⟩, hmem, hr⟩ := List.exists_of_findSome?_eq_some h
  exact ⟨op, mode, f, of?_of_mem_table hmem, hr⟩

/-- A word is read as an instruction if and only if that instruction is packed into it. -/
theorem read?_eq_whole_iff {word : Cell} {i : Instr} :
    read? word = some (.whole i) ↔ i.encode = .ok (.packed word) := by
  constructor
  · intro h
    by_cases hne : word = haltWord
    · subst hne
      obtain rfl : halt = i := by simpa [read?_haltWord] using h
      rfl
    · obtain ⟨op, mode, f, hf, hr⟩ := exists_inFormat? hne h
      simp only [Reading.inFormat?] at hr
      split at hr
      · rename_i v hv
        obtain rfl : (⟨op, some ⟨mode, v⟩⟩ : Instr) = i := by simpa using hr
        obtain ⟨hpacks, rfl⟩ := packedWord_of_unpack? (isProper_table _ (mem_table hf)) hv
        simp [encode, encodeFrom, hf, hpacks]
      · split at hr <;> exact absurd hr (by simp)
  · intro h
    obtain ⟨op, _ | x⟩ := i
    · obtain ⟨rfl, heq⟩ := encodeFrom_none h
      obtain rfl := Encoded.packed.inj heq
      exact read?_haltWord
    · obtain ⟨f, hf, ⟨hpacks, heq⟩ | heq⟩ := encodeFrom_eq_ok h
      · obtain rfl := Encoded.packed.inj heq
        exact read?_packedWord hf hpacks
      · exact absurd heq (by simp)

/-- A word is read as a marker if and only if it announces any operand of that opcode and mode. -/
theorem read?_eq_marker_iff {word : Cell} {op : Opcode} {mode : Mode} (v : Cell) :
    read? word = some (.marker op mode) ↔
      (⟨op, some ⟨mode, v⟩⟩ : Instr).encodeWide = .ok (.wide word v) := by
  constructor
  · intro h
    have hne : word ≠ haltWord := by
      rintro rfl
      simp [read?_haltWord] at h
    obtain ⟨op', mode', f, hf, hr⟩ := exists_inFormat? hne h
    simp only [Reading.inFormat?] at hr
    split at hr
    · exact absurd hr (by simp)
    · split at hr
      · rename_i hword
        obtain ⟨rfl, rfl⟩ : op' = op ∧ mode' = mode := by simpa using hr
        simp [encodeWide, encodeFrom, hf, hword]
      · exact absurd hr (by simp)
  · intro h
    obtain ⟨f, hf, ⟨-, heq⟩ | heq⟩ := encodeFrom_eq_ok h
    · exact absurd heq (by simp)
    · obtain ⟨rfl, -⟩ := Encoded.wide.inj heq
      exact read?_markerWord hf

theorem read?_of_encodesAs_packed {i : Instr} {word : Cell} (h : i.EncodesAs (.packed word)) :
    read? word = some (.whole i) := by
  rcases h with h | h
  · exact read?_eq_whole_iff.2 h
  · -- what is packed although it is to be wide is a halt, packed in any case
    obtain ⟨op, _ | x⟩ := i
    · exact read?_eq_whole_iff.2 h
    · obtain ⟨f, -, hwidth⟩ := width_of_encodeFrom h
      exact absurd (hwidth.1 rfl).1 (by simp)

theorem read?_of_encodesAs_wide {i : Instr} {word v : Cell} (h : i.EncodesAs (.wide word v)) :
    ∃ op mode, i = ⟨op, some ⟨mode, v⟩⟩ ∧ read? word = some (.marker op mode) := by
  obtain ⟨least, h⟩ := encodesAs_iff.1 h
  obtain ⟨op, _ | ⟨mode, u⟩⟩ := i
  · exact absurd (encodeFrom_none h).2 (by simp)
  · obtain ⟨f, hf, ⟨-, heq⟩ | heq⟩ := encodeFrom_eq_ok h
    · exact absurd heq (by simp)
    · obtain ⟨rfl, rfl⟩ := Encoded.wide.inj heq
      exact ⟨op, mode, rfl, read?_markerWord hf⟩

/-! ## First words -/

/-- A word with which some instruction starts. -/
def IsFirstWord (word : Cell) : Prop :=
  ∃ i e, EncodesAs i e ∧ e.words[0]? = some word

theorem isSome_read?_of_isFirstWord {word : Cell} (h : IsFirstWord word) :
    (read? word).isSome := by
  obtain ⟨i, _ | ⟨w, v⟩, he, hw⟩ := h
  · obtain rfl : _ = word := Option.some.inj hw
    simp [read?_of_encodesAs_packed he]
  · obtain rfl : w = word := Option.some.inj hw
    obtain ⟨op, mode, -, hread⟩ := read?_of_encodesAs_wide he
    simp [hread]

/-- The words without a reading are those with which no instruction starts. -/
theorem read?_eq_none_iff {word : Cell} : read? word = none ↔ ¬ IsFirstWord word := by
  constructor
  · intro h hfirst
    simpa [h] using isSome_read?_of_isFirstWord hfirst
  · intro h
    cases hr : read? word with
    | none => rfl
    | some r =>
        refine absurd ?_ h
        cases r with
        | whole i => exact ⟨i, _, Or.inl (read?_eq_whole_iff.1 hr), rfl⟩
        | marker op mode => exact ⟨_, _, Or.inr ((read?_eq_marker_iff 0).1 hr), rfl⟩

/-- Encodings that start with the same word are equally wide, and with the same operand cell they
    are of the same instruction. -/
theorem eq_of_first_word {i j : Instr} {e e' : Encoded} (hi : i.EncodesAs e) (hj : j.EncodesAs e')
    {word : Cell} (he : e.words[0]? = some word) (he' : e'.words[0]? = some word) :
    e.width = e'.width ∧ (e = e' → i = j) := by
  cases e with
  | packed w =>
      obtain rfl : w = word := Option.some.inj he
      have hreadi := read?_of_encodesAs_packed hi
      cases e' with
      | packed w' =>
          obtain rfl : w' = w := Option.some.inj he'
          have hreadj := read?_of_encodesAs_packed hj
          refine ⟨rfl, fun _ => ?_⟩
          simpa [hreadi] using hreadj
      | wide w' v' =>
          obtain rfl : w' = w := Option.some.inj he'
          obtain ⟨op, mode, -, hreadj⟩ := read?_of_encodesAs_wide hj
          simp [hreadi] at hreadj
  | wide w v =>
      obtain rfl : w = word := Option.some.inj he
      obtain ⟨op, mode, rfl, hreadi⟩ := read?_of_encodesAs_wide hi
      cases e' with
      | packed w' =>
          obtain rfl : w' = w := Option.some.inj he'
          have hreadj := read?_of_encodesAs_packed hj
          simp [hreadi] at hreadj
      | wide w' v' =>
          obtain rfl : w' = w := Option.some.inj he'
          obtain ⟨op', mode', rfl, hreadj⟩ := read?_of_encodesAs_wide hj
          obtain ⟨rfl, rfl⟩ : op = op' ∧ mode = mode' := by simpa [hreadi] using hreadj
          refine ⟨rfl, fun heq => ?_⟩
          rw [(Encoded.wide.inj heq).2]

/-! ## Decoding -/

/-- Decoding undoes either encoding, and takes the next cell only after a marker. -/
theorem decode_of_encodesAs {i : Instr} {e : Encoded} (h : i.EncodesAs e) {word : Cell}
    (hword : e.words[0]? = some word) {next : Except Fault Cell}
    (hnext : ∀ v, e.words[1]? = some v → next = .ok v) : decode word next = .ok (i, e.width) := by
  cases e with
  | packed w =>
      obtain rfl : w = word := Option.some.inj hword
      simp [decode, read?_of_encodesAs_packed h, Encoded.width]
  | wide w v =>
      obtain rfl : w = word := Option.some.inj hword
      obtain ⟨op, mode, rfl, hread⟩ := read?_of_encodesAs_wide h
      simp [decode, hread, hnext v rfl, Except.map, Encoded.width]

theorem readsNext_iff_of_encodesAs {i : Instr} {e : Encoded} (h : i.EncodesAs e) {word : Cell}
    (hword : e.words[0]? = some word) : readsNext word = true ↔ e.width = .wide := by
  cases e with
  | packed w =>
      obtain rfl : w = word := Option.some.inj hword
      simp [readsNext, read?_of_encodesAs_packed h, Encoded.width]
  | wide w v =>
      obtain rfl : w = word := Option.some.inj hword
      obtain ⟨op, mode, -, hread⟩ := read?_of_encodesAs_wide h
      simp [readsNext, hread, Encoded.width]

/-- A word that asks for the next cell hands on its fault. -/
theorem decode_error_of_readsNext {word : Cell} (h : readsNext word = true) (f : Fault) :
    decode word (.error f) = .error f := by
  unfold readsNext at h
  split at h
  · rename_i op mode hread
    simp [decode, hread, Except.map]
  · exact absurd h (by simp)

/-- Encoding and decoding fit together for every instruction. Whatever cells it is given, they
    are decoded to it again in its width, and the second of them is asked for if and only if there
    is one. It is packed exactly up to the limit of its format, unless it is to be wide. And it
    has cells unless it lacks an operand or cannot take the one it has. -/
theorem decode_encode (i : Instr) :
    (∀ e, i.EncodesAs e → ∃ word, e.words[0]? = some word ∧
      (∀ next, (∀ v, e.words[1]? = some v → next = .ok v) →
        decode word next = .ok (i, e.width)) ∧
      (readsNext word = true ↔ e.width = .wide) ∧
      (e.width = .wide → ∀ f, decode word (.error f) = .error f)) ∧
    (∀ e x, i.encode = .ok e → i.operand = some x →
      (∃ f, of? i.op x.mode = some f ∧
        (e.width = .packed ↔ 0 ≤ x.value.toInt ∧ x.value.toInt < f.limit)) ∧
      (x.value.toInt < 0 → e.width = .wide)) ∧
    (∀ e x, i.encodeWide = .ok e → i.operand = some x → e.width = .wide) ∧
    (∀ d, (i.encode = .error d ↔ i.Refused d) ∧ (i.encodeWide = .error d ↔ i.Refused d)) := by
  refine ⟨?_, ?_, ?_, fun d => ⟨encodeFrom_eq_error_iff, encodeFrom_eq_error_iff⟩⟩
  · intro e he
    obtain ⟨word, hword⟩ := e.exists_first_word
    have hasks := readsNext_iff_of_encodesAs he hword
    exact ⟨word, hword, fun next hnext => decode_of_encodesAs he hword hnext, hasks,
      fun hwide f => decode_error_of_readsNext (hasks.2 hwide) f⟩
  · intro e x he hx
    obtain ⟨op, _ | x'⟩ := i
    · exact absurd hx (by simp)
    · obtain rfl : x' = x := Option.some.inj hx
      obtain ⟨f, hf, hwidth⟩ := width_of_encodeFrom he
      refine ⟨⟨f, hf, by simpa using hwidth⟩, ?_⟩
      intro hneg
      cases hw : e.width with
      | wide => rfl
      | packed => exact absurd (hwidth.1 hw).2.1 (by omega)
  · intro e x he hx
    obtain ⟨op, _ | x'⟩ := i
    · exact absurd hx (by simp)
    · obtain ⟨f, -, hwidth⟩ := width_of_encodeFrom he
      cases hw : e.width with
      | wide => rfl
      | packed => exact absurd (hwidth.1 hw).1 (by simp)

end Instr

end DecimalMachine
