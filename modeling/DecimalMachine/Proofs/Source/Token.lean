import DecimalMachine.Source.Token
import Mathlib.Data.List.TakeWhile

set_option autoImplicit false

/-! # Integers as words

The decimal text of an integer is a row of digits, perhaps with a minus sign in front, and the
scanner takes exactly the whole of it (`scan?_chars`). So every cell value is read back from its
text, the least and the greatest one included (`Token.int?_text`). The other way round, a word that
is read as an integer is a row of digits, perhaps with a sign (`Token.sign_or_isDigit_of_int?`). -/

namespace DecimalMachine

namespace Text.Numeral

/-! ## Digits -/

theorem toNat_of_isDigit {c : Char} (h : c.isDigit = true) : 48 ≤ c.toNat ∧ c.toNat ≤ 57 := by
  simp only [Char.isDigit, Bool.and_eq_true, decide_eq_true_eq, ge_iff_le,
    UInt32.le_iff_toNat_le] at h
  exact h

/-- The text of an integer holds digits and a minus sign, and nothing else. -/
theorem toNat_of_mem_chars {n : Int} {c : Char} (h : c ∈ chars n) :
    c.toNat = 45 ∨ (48 ≤ c.toNat ∧ c.toNat ≤ 57) := by
  have hdigits : ∀ c ∈ Nat.toDigits 10 n.natAbs, 48 ≤ c.toNat ∧ c.toNat ≤ 57 := by
    intro c hc
    exact toNat_of_isDigit (Nat.isDigit_of_mem_toDigits (by decide) (by decide) hc)
  unfold chars at h
  split at h
  · rcases List.mem_cons.1 h with rfl | h
    · exact Or.inl rfl
    · exact Or.inr (hdigits c h)
  · exact Or.inr (hdigits c h)

theorem chars_ne_nil (n : Int) : chars n ≠ [] := by
  unfold chars
  split
  · exact List.cons_ne_nil _ _
  · exact Nat.toDigits_ne_nil

/-! ## Scanning -/

/-- The digits of a number are scanned as that number, to the end. -/
theorem magnitude?_toDigits (n : Nat) : magnitude? (Nat.toDigits 10 n) = some (n, []) := by
  have hdigits : ∀ c ∈ Nat.toDigits 10 n, c.isDigit = true :=
    fun c hc => Nat.isDigit_of_mem_toDigits (by decide) (by decide) hc
  have htake : (Nat.toDigits 10 n).takeWhile Char.isDigit = Nat.toDigits 10 n := by
    simpa using @List.takeWhile_append_of_pos _ _ _ [] hdigits
  have hdrop : (Nat.toDigits 10 n).dropWhile Char.isDigit = [] := by
    simpa using @List.dropWhile_append_of_pos _ _ _ [] hdigits
  have hvalue : value (Nat.toDigits 10 n) = n :=
    Nat.ofDigitChars_toDigits (by decide) (by decide)
  simp [magnitude?, htake, hdrop, hvalue, Nat.toDigits_ne_nil]

/-- What is scanned to its end as a row of digits holds digits and nothing else. -/
theorem isDigit_of_magnitude? {cs : List Char} {n : Nat} (h : magnitude? cs = some (n, []))
    {c : Char} (hc : c ∈ cs) : c.isDigit = true := by
  unfold magnitude? at h
  dsimp only at h
  split at h
  · exact absurd h (by simp)
  · exact List.dropWhile_eq_nil_iff.1 (Prod.mk.inj (Option.some.inj h)).2 c hc

/-- A text that starts with a digit is scanned without a sign. -/
theorem scan?_of_isDigit {c : Char} {cs : List Char} (h : c.isDigit = true) :
    scan? (c :: cs) = (magnitude? (c :: cs)).map fun (n, rest) => ((n : Int), rest) := by
  unfold scan?
  split
  · rename_i heq
    obtain rfl := (List.cons.inj heq).1
    exact absurd h (by decide)
  · rename_i heq
    obtain rfl := (List.cons.inj heq).1
    exact absurd h (by decide)
  · rfl

theorem scan?_chars (n : Int) : scan? (chars n) = some (n, []) := by
  by_cases hneg : n < 0
  · have habs : -(n.natAbs : Int) = n := by omega
    simp only [chars, hneg, if_true, scan?, magnitude?_toDigits, Option.map_some, habs]
  · have habs : (n.natAbs : Int) = n := by omega
    have hmagnitude := magnitude?_toDigits n.natAbs
    simp only [chars, hneg, if_false]
    cases hdigits : Nat.toDigits 10 n.natAbs with
    | nil => exact absurd hdigits Nat.toDigits_ne_nil
    | cons c cs =>
        have hc : c.isDigit = true := by
          refine Nat.isDigit_of_mem_toDigits (b := 10) (n := n.natAbs) (by decide) (by decide) ?_
          rw [hdigits]
          exact List.mem_cons_self
        rw [hdigits] at hmagnitude
        rw [scan?_of_isDigit hc, hmagnitude]
        simp only [Option.map_some, habs]

end Text.Numeral

/-! ## Cell values -/

theorem Cell.ofInt?_toInt (v : Cell) : Cell.ofInt? v.toInt = some v := by
  rw [ofInt?, if_pos ⟨Int32.minValue_le_toInt v, Int32.toInt_le v⟩, Int32.ofInt_toInt]

/-- Every cell value is read back from its text. -/
theorem Token.int?_text (v : Cell) : Token.int? v.text = some v := by
  have hscan : Token.scan v.text.toList = .ok (.int v, []) := by
    simp [Token.scan, Cell.text, Text.Numeral.text, Text.Numeral.scan?_chars, Cell.ofInt?_toInt]
  simp [Token.int?, Token.classify, hscan]

/-! ## Words that are tokens -/

namespace Token

/-- A token that a word is as a whole is scanned to the end of the word. -/
theorem scan_of_classify {w : String} {t : Token} (h : classify w = some t) :
    scan w.toList = .ok (t, []) := by
  unfold classify at h
  split at h
  · rename_i heq
    rw [heq, Option.some.inj h]
  · exact absurd h (by simp)

theorem scan?_of_int? {w : String} {v : Cell} (h : int? w = some v) :
    ∃ n, Text.Numeral.scan? w.toList = some (n, []) := by
  have hclassify : classify w = some (.int v) := by
    unfold int? at h
    split at h
    · rename_i heq
      rw [heq, Option.some.inj h]
    · exact absurd h (by simp)
  have hscan := scan_of_classify hclassify
  unfold scan at hscan
  split at hscan
  · rename_i n rest hn
    split at hscan
    · obtain rfl : rest = [] := (Prod.mk.inj (Except.ok.inj hscan)).2
      exact ⟨n, hn⟩
    · exact absurd hscan (by simp)
  · split at hscan <;> simp at hscan

/-- A word that is an integer has digits, and at most a sign in front of them. -/
theorem sign_or_isDigit_of_int? {w : String} {v : Cell} (h : int? w = some v) {c : Char}
    (hc : c ∈ w.toList) : c = '-' ∨ c = '+' ∨ c.isDigit = true := by
  obtain ⟨n, hscan⟩ := scan?_of_int? h
  unfold Text.Numeral.scan? at hscan
  split at hscan
  all_goals
    rename_i heq
    obtain ⟨⟨i, rest⟩, hmagnitude, hpair⟩ := Option.map_eq_some_iff.1 hscan
    obtain rfl : rest = [] := (Prod.mk.inj hpair).2
  · rw [heq] at hc
    rcases List.mem_cons.1 hc with rfl | hc
    · exact .inl rfl
    · exact .inr (.inr (Text.Numeral.isDigit_of_magnitude? hmagnitude hc))
  · rw [heq] at hc
    rcases List.mem_cons.1 hc with rfl | hc
    · exact .inr (.inl rfl)
    · exact .inr (.inr (Text.Numeral.isDigit_of_magnitude? hmagnitude hc))
  · exact .inr (.inr (Text.Numeral.isDigit_of_magnitude? hmagnitude hc))

/-! ## Labels to be defined -/

theorem scanLabel?_of_label? {w name : String} (h : label? w = some name) :
    scanLabel? w.toList = some (name, []) := by
  have hclassify : classify w = some (.label name) := by
    unfold label? at h
    split at h
    · rename_i heq
      rw [heq, Option.some.inj h]
    · exact absurd h (by simp)
  have hscan := scan_of_classify hclassify
  unfold scan at hscan
  split at hscan
  · split at hscan <;> simp at hscan
  · split at hscan
    · rename_i heq
      simp only [Except.ok.injEq, Prod.mk.injEq, label.injEq] at hscan
      obtain ⟨rfl, rfl⟩ := hscan
      exact heq
    · exact absurd hscan (by simp)

/-- The definition of a label is no integer. -/
theorem int?_of_label? {w name : String} (h : label? w = some name) : int? w = none := by
  unfold label? at h
  split at h
  · rename_i heq
    rw [int?, heq]
  · exact absurd h (by simp)

end Token

end DecimalMachine
