import DecimalMachine.Proofs.Instr.RoundTrip
import DecimalMachine.Proofs.Machine.Step

set_option autoImplicit false

/-! # Words that the machine recognizes

What is decoded from memory is what encoding would have put there: the cells of an instruction are
the only ones that say it in their width, and a word with which no instruction starts is rejected
without a look at the cell after it. A machine that comes to such a word faults and does nothing
(`Machine.execute_of_not_isFirstWord`). -/

namespace DecimalMachine

namespace Instr

/-! ## Decoded instructions -/

theorem decode_eq_unrecognized_iff {word v : Cell} :
    decode word (.ok v) = .error (.unrecognized word) ↔ read? word = none := by
  unfold decode
  cases hread : read? word with
  | none => simp
  | some r => cases r <;> simp [Except.map]

/-- An instruction decoded from one cell is packed into that cell. -/
theorem encode_of_decode_packed {word : Cell} {next : Except Fault Cell} {i : Instr}
    (h : decode word next = .ok (i, .packed)) : i.encode = .ok (.packed word) := by
  refine read?_eq_whole_iff.1 ?_
  unfold decode at h
  split at h
  · exact absurd h (by simp)
  · rename_i j hread
    obtain rfl : j = i := by simpa using h
    exact hread
  · cases next <;> simp [Except.map] at h

/-- An instruction decoded from two cells is written wide into those cells. -/
theorem encodeWide_of_decode_wide {word v : Cell} {i : Instr}
    (h : decode word (.ok v) = .ok (i, .wide)) : i.encodeWide = .ok (.wide word v) := by
  unfold decode at h
  split at h
  · exact absurd h (by simp)
  · exact absurd h (by simp)
  · rename_i op mode hread
    obtain rfl : (⟨op, some ⟨mode, v⟩⟩ : Instr) = i := by simpa [Except.map] using h
    exact (read?_eq_marker_iff v).1 hread

/-- A word with which no instruction starts is rejected, whatever comes after it. -/
theorem decode_of_not_isFirstWord {word : Cell} (h : ¬ IsFirstWord word)
    (next : Except Fault Cell) : decode word next = .error (.unrecognized word) := by
  simp [decode, read?_eq_none_iff.2 h]

theorem readsNext_of_not_isFirstWord {word : Cell} (h : ¬ IsFirstWord word) :
    readsNext word = false := by
  simp [readsNext, read?_eq_none_iff.2 h]

end Instr

/-! ## Execution -/

namespace Machine

/-- A word with which no instruction starts is never executed. -/
theorem execute_of_not_isFirstWord {m : Machine} (hactive : m.IsActive) {word : Cell}
    (hread : m.core.memory.read m.core.pc = .ok word) (h : ¬ Instr.IsFirstWord word) :
    m.execute =
      ({ m with status := .faulted (.unrecognized word) }, .faulted (.unrecognized word)) := by
  refine execute_of_effect_error hactive ?_
  have hfetch : m.core.fetch = .error (.unrecognized word) := by
    simp only [Core.fetch, hread]
    exact Instr.decode_of_not_isFirstWord h _
  simp only [Core.effect, hfetch]
  rfl

end Machine

/-- Decoding and encoding fit together for every pair of cells. What is decoded from them is
    encoded to them again, in the width it was found in; the word is rejected if and only if no
    instruction starts with it, and then the next cell is not asked for and no machine executes
    it. The encodings that start with one word are equally wide, and no two instructions share
    one. -/
theorem Instr.encode_decode (word v : Cell) :
    (∀ i, decode word (.ok v) = .ok (i, .packed) → i.encode = .ok (.packed word)) ∧
    (∀ i, decode word (.ok v) = .ok (i, .wide) → i.encodeWide = .ok (.wide word v)) ∧
    (decode word (.ok v) = .error (.unrecognized word) ↔
      ∀ i e, EncodesAs i e → e.words[0]? ≠ some word) ∧
    (decode word (.ok v) = .error (.unrecognized word) →
      readsNext word = false ∧ (∀ next, decode word next = .error (.unrecognized word)) ∧
      ∀ m : Machine, m.IsActive → m.core.memory.read m.core.pc = .ok word →
        m.execute =
          ({ m with status := .faulted (.unrecognized word) }, .faulted (.unrecognized word))) ∧
    (∀ i j e e', EncodesAs i e → EncodesAs j e' → e.words[0]? = some word →
      e'.words[0]? = some word → e.width = e'.width ∧ (e = e' → i = j)) := by
  have hrejected : decode word (.ok v) = .error (.unrecognized word) ↔ ¬ IsFirstWord word :=
    decode_eq_unrecognized_iff.trans read?_eq_none_iff
  refine ⟨fun i => encode_of_decode_packed, fun i => encodeWide_of_decode_wide, ?_, ?_, ?_⟩
  · rw [hrejected]
    simp only [IsFirstWord, not_exists, not_and, ne_eq]
  · intro h
    have hnot := hrejected.1 h
    exact ⟨readsNext_of_not_isFirstWord hnot, decode_of_not_isFirstWord hnot,
      fun m hactive hread => Machine.execute_of_not_isFirstWord hactive hread hnot⟩
  · intro i j e e' hi hj he he'
    exact eq_of_first_word hi hj he he'

end DecimalMachine
