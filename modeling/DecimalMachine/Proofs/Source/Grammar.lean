import DecimalMachine.Proofs.Assembly.Identifier
import Mathlib.Data.List.Basic
import Mathlib.Data.Nat.Digits.Defs

set_option autoImplicit false

/-! # The grammar of words

An integer is spelled by a row of digits with at most one sign in front of it
(`Text.Numeral.Spells`), and the definition of a label by an identifier and a colon. The scanner
takes as many digits as there are, so what it leaves of a text does not go on with a digit
(`Text.Numeral.scan?_eq_some_iff`). Hence a word is a token just if all of it spells one
(`Token.classify_eq_some_iff`): a token with anything behind it is none, unless it is an integer and
the digits of it go on. -/

namespace DecimalMachine

namespace Text.Numeral

/-! ## Rows of digits -/

/-- A row of decimal digits, one of them at least. -/
structure IsRow (ds : List Char) : Prop where
  ne_nil : ds ≠ []
  isDigit : ∀ d ∈ ds, d.isDigit = true

/-- The number that a row of digits spells; the first of them counts most. -/
def number (ds : List Char) : Nat :=
  Nat.ofDigits 10 (ds.reverse.map fun d => d.toNat - '0'.toNat)

theorem value_eq_number (ds : List Char) : value ds = number ds := by
  have hstep : (fun (v : Nat) (d : Char) => 10 * v + (d.toNat - '0'.toNat)) =
      fun v d => (d.toNat - '0'.toNat) + 10 * v := by
    funext v d
    exact Nat.add_comm _ _
  rw [number, Nat.ofDigits_eq_foldr, List.foldr_map, List.foldr_reverse, value, hstep]
  rfl

/-- The longest row of digits is what comes in front of the first character that is no digit. -/
theorem magnitude?_eq_some_iff {cs rest : List Char} {n : Nat} :
    magnitude? cs = some (n, rest) ↔
      ∃ ds, IsRow ds ∧ cs = ds ++ rest ∧ n = number ds ∧
        ∀ c ∈ rest.head?, c.isDigit = false := by
  unfold magnitude?
  dsimp only
  constructor
  · intro h
    split at h
    · exact absurd h (by simp)
    · rename_i hne
      obtain ⟨rfl, rfl⟩ := Prod.mk.inj (Option.some.inj h)
      refine ⟨cs.takeWhile Char.isDigit, ⟨by simpa using hne, ?_⟩,
        List.takeWhile_append_dropWhile.symm, value_eq_number _, fun c hc => ?_⟩
      · exact List.all_eq_true.1 List.all_takeWhile
      · have hhead := List.head?_dropWhile_not Char.isDigit cs
        rw [Option.mem_def.1 hc] at hhead
        exact hhead
  · rintro ⟨ds, ⟨hne, hdigits⟩, rfl, rfl, hhead⟩
    have hrest : rest.takeWhile Char.isDigit = [] ∧ rest.dropWhile Char.isDigit = rest := by
      cases rest with
      | nil => exact ⟨rfl, rfl⟩
      | cons c cs =>
          have hc := hhead c rfl
          simp [hc]
    rw [List.takeWhile_append_of_pos hdigits, List.dropWhile_append_of_pos hdigits, hrest.1,
      hrest.2, List.append_nil, if_neg (by simpa using hne), value_eq_number]

/-! ## Numerals -/

/-- A text spells an integer: it is a row of digits, with one sign in front of it or none. -/
inductive Spells : List Char → Int → Prop
  | unsigned {ds : List Char} (h : IsRow ds) : Spells ds (number ds)
  | plus {ds : List Char} (h : IsRow ds) : Spells ('+' :: ds) (number ds)
  | minus {ds : List Char} (h : IsRow ds) : Spells ('-' :: ds) (-(number ds : Int))

/-- Behind the first character of a numeral there are digits only. -/
theorem Spells.isDigit_of_mem_tail {cs : List Char} {n : Int} (h : Spells cs n) {c : Char}
    (hc : c ∈ cs.tail) : c.isDigit = true := by
  cases h with
  | unsigned h => exact h.isDigit c (List.mem_of_mem_tail hc)
  | plus h => exact h.isDigit c hc
  | minus h => exact h.isDigit c hc

/-- A numeral starts with a digit or a sign. -/
theorem Spells.exists_cons {cs : List Char} {n : Int} (h : Spells cs n) :
    ∃ c rest, cs = c :: rest ∧ (c = '+' ∨ c = '-' ∨ c.isDigit = true) := by
  cases h with
  | unsigned h =>
      obtain ⟨c, rest, rfl⟩ := List.exists_cons_of_ne_nil h.ne_nil
      exact ⟨c, rest, rfl, .inr (.inr (h.isDigit c List.mem_cons_self))⟩
  | plus => exact ⟨_, _, rfl, .inl rfl⟩
  | minus => exact ⟨_, _, rfl, .inr (.inl rfl)⟩

/-- The longest numeral at the start of a text is the one behind which no digit follows. -/
theorem scan?_eq_some_iff {cs rest : List Char} {n : Int} :
    scan? cs = some (n, rest) ↔
      ∃ numeral, Spells numeral n ∧ cs = numeral ++ rest ∧ ∀ c ∈ rest.head?, c.isDigit = false := by
  constructor
  · intro h
    unfold scan? at h
    split at h
    all_goals
      obtain ⟨⟨m, rest'⟩, hmagnitude, hpair⟩ := Option.map_eq_some_iff.1 h
      obtain ⟨rfl, rfl⟩ := Prod.mk.inj hpair
      obtain ⟨ds, hds, rfl, rfl, hrest⟩ := magnitude?_eq_some_iff.1 hmagnitude
    · exact ⟨_, .minus hds, rfl, hrest⟩
    · exact ⟨_, .plus hds, rfl, hrest⟩
    · exact ⟨_, .unsigned hds, rfl, hrest⟩
  · rintro ⟨numeral, hspells, rfl, hrest⟩
    have hmagnitude : ∀ {ds : List Char}, IsRow ds →
        magnitude? (ds ++ rest) = some (number ds, rest) :=
      fun hds => magnitude?_eq_some_iff.2 ⟨_, hds, rfl, rfl, hrest⟩
    cases hspells with
    | @unsigned ds hds =>
        obtain ⟨d, ds', rfl⟩ := List.exists_cons_of_ne_nil hds.ne_nil
        rw [List.cons_append, scan?_of_isDigit (hds.isDigit d List.mem_cons_self),
          ← List.cons_append, hmagnitude hds]
        rfl
    | plus hds =>
        rw [List.cons_append, scan?, hmagnitude hds]
        rfl
    | minus hds =>
        rw [List.cons_append, scan?, hmagnitude hds]
        rfl

/-- A text is scanned to its end as the integer that it spells. -/
theorem scan?_eq_whole_iff {cs : List Char} {n : Int} : scan? cs = some (n, []) ↔ Spells cs n := by
  rw [scan?_eq_some_iff]
  simp

end Text.Numeral

/-! ## Cell values -/

theorem Cell.ofInt?_eq_some_iff {n : Int} {v : Cell} : ofInt? n = some v ↔ v.toInt = n := by
  constructor
  · intro h
    unfold ofInt? at h
    split at h
    · rename_i hrange
      obtain rfl := Option.some.inj h
      exact Int32.toInt_ofInt_of_le hrange.1 (Int.lt_add_one_of_le hrange.2)
    · exact absurd h (by simp)
  · rintro rfl
    exact ofInt?_toInt v

/-- The integers that cells hold are those of 32 bits with a sign. -/
theorem Cell.exists_toInt_eq_iff {n : Int} :
    (∃ v : Cell, v.toInt = n) ↔ -2 ^ 31 ≤ n ∧ n < 2 ^ 31 := by
  constructor
  · rintro ⟨v, rfl⟩
    exact ⟨v.le_toInt, v.toInt_lt⟩
  · rintro ⟨hlow, hhigh⟩
    exact ⟨Int32.ofInt n, Int32.toInt_ofInt_of_le hlow hhigh⟩

/-! ## Tokens -/

namespace Token

/-- All of a word spells a token. -/
inductive Spells : String → Token → Prop
  /-- A numeral spells the cell value that is equal to its integer. -/
  | int {w : String} {v : Cell} (h : Text.Numeral.Spells w.toList v.toInt) : Spells w (.int v)
  /-- A letter or an underscore, then letters, numbers and underscores, and then a colon. -/
  | label {name : String} {first : Char} {rest : List Char} (hname : name.toList = first :: rest)
      (hfirst : Text.isLetter first = true ∨ first = '_')
      (hrest : ∀ c ∈ rest, Text.isLetter c = true ∨ Text.isNumber c = true ∨ c = '_') :
      Spells (name ++ ":") (.label name)

theorem classify_eq_int_iff {w : String} {v : Cell} :
    classify w = some (.int v) ↔ Text.Numeral.Spells w.toList v.toInt := by
  rw [← Text.Numeral.scan?_eq_whole_iff]
  constructor
  · intro h
    have hscan := scan_of_classify h
    unfold scan at hscan
    split at hscan
    · rename_i n rest hn
      split at hscan
      · rename_i u hu
        simp only [Except.ok.injEq, Prod.mk.injEq, int.injEq] at hscan
        obtain ⟨rfl, rfl⟩ := hscan
        rw [hn, Cell.ofInt?_eq_some_iff.1 hu]
      · exact absurd hscan (by simp)
    · split at hscan <;> simp at hscan
  · intro h
    rw [classify, scan, h]
    simp only [Cell.ofInt?_toInt]

theorem int?_eq_some_iff_classify {w : String} {v : Cell} :
    int? w = some v ↔ classify w = some (.int v) := by
  unfold int?
  split
  · rename_i heq
    simp [heq]
  · rename_i hne
    simp only [reduceCtorEq, false_iff]
    exact hne v

theorem label?_eq_some_iff_classify {w name : String} :
    label? w = some name ↔ classify w = some (.label name) := by
  unfold label?
  split
  · rename_i heq
    simp [heq]
  · rename_i hne
    simp only [reduceCtorEq, false_iff]
    exact hne name

/-- A name is an identifier if its first character can start a label and the others go on with
    it. -/
theorem isIdentifier_iff {name : String} :
    isIdentifier name = true ↔
      ∃ first rest, name.toList = first :: rest ∧ (Text.isLetter first = true ∨ first = '_') ∧
        ∀ c ∈ rest, Text.isLetter c = true ∨ Text.isNumber c = true ∨ c = '_' := by
  unfold isIdentifier
  cases name.toList with
  | nil => simp
  | cons first rest => simp [isLabelStart, isLabelPart, or_assoc]

theorem classify_eq_label_iff {w name : String} :
    classify w = some (.label name) ↔
      ∃ first rest, name.toList = first :: rest ∧ (Text.isLetter first = true ∨ first = '_') ∧
        (∀ c ∈ rest, Text.isLetter c = true ∨ Text.isNumber c = true ∨ c = '_') ∧
        w = name ++ ":" := by
  rw [← label?_eq_some_iff_classify, label?_eq_some_iff, isIdentifier_iff]
  constructor
  · rintro ⟨⟨first, rest, hname, hfirst, hrest⟩, hw⟩
    exact ⟨first, rest, hname, hfirst, hrest, hw⟩
  · rintro ⟨first, rest, hname, hfirst, hrest, hw⟩
    exact ⟨⟨first, rest, hname, hfirst, hrest⟩, hw⟩

/-- A word is the token that all of it spells. -/
theorem classify_eq_some_iff {w : String} {t : Token} : classify w = some t ↔ Spells w t := by
  cases t with
  | int v =>
      rw [classify_eq_int_iff]
      exact ⟨.int, fun | .int h => h⟩
  | label name =>
      rw [classify_eq_label_iff]
      constructor
      · rintro ⟨first, rest, hname, hfirst, hrest, rfl⟩
        exact .label hname hfirst hrest
      · rintro ⟨⟩
        exact ⟨_, _, ‹_›, ‹_›, ‹_›, rfl⟩

theorem Spells.isIdentifier {w name : String} (h : Spells w (.label name)) :
    isIdentifier name = true ∧ w = name ++ ":" := by
  cases h with
  | label hname hfirst hrest => exact ⟨isIdentifier_iff.2 ⟨_, _, hname, hfirst, hrest⟩, rfl⟩

/-! ## Words that go on -/

/-- The first character of a token tells which kind of token it is. -/
theorem Spells.exists_cons {w : String} {t : Token} (h : Spells w t) :
    ∃ c rest, w.toList = c :: rest ∧ (isLabelStart c = true ↔ ∃ name, t = .label name) := by
  cases h with
  | int h =>
      obtain ⟨c, rest, hw, hc⟩ := h.exists_cons
      have hstart : ¬ isLabelStart c = true := by
        rcases hc with rfl | rfl | hdigit
        · decide +kernel
        · decide +kernel
        · exact fun hstart => not_isDigit_of_isLabelStart hstart hdigit
      exact ⟨c, rest, hw, by simpa using hstart⟩
  | @label name first rest hname hfirst _ =>
      refine ⟨first, rest ++ [':'], by simp [hname], ?_⟩
      simpa [isLabelStart] using hfirst

/-- Nothing goes on behind the colon of a label, as no identifier holds a colon. -/
theorem eq_empty_of_append_colon {name name' v : String} (hname' : isIdentifier name' = true)
    (h : name ++ ":" ++ v = name' ++ ":") : v = "" := by
  refine Classical.byContradiction fun hv => ?_
  have hchars := congrArg String.toList h
  have hlast := List.dropLast_append_getLast (String.toList_eq_nil_iff.not.2 hv)
  rw [String.toList_append, String.toList_append, String.toList_append, ← hlast,
    ← List.append_assoc] at hchars
  have hmem : ':' ∈ name'.toList := by
    rw [← List.append_inj_left' hchars rfl]
    simp
  exact absurd (isLabelPart_of_mem hname' hmem) (by decide +kernel)

/-- A token that goes on to be another one is an integer, and goes on with digits. -/
theorem Spells.isDigit_of_append {u v : String} {t t' : Token} (h : Spells u t)
    (h' : Spells (u ++ v) t') (hv : v ≠ "") :
    (∃ n, t = .int n) ∧ ∀ c ∈ v.toList, c.isDigit = true := by
  obtain ⟨c, rest, hu, hkind⟩ := h.exists_cons
  obtain ⟨c', rest', huv, hkind'⟩ := h'.exists_cons
  rw [String.toList_append, hu, List.cons_append, List.cons.injEq] at huv
  obtain ⟨rfl, rfl⟩ := huv
  cases t' with
  | int n' =>
      have hdigits : ∀ c ∈ v.toList, c.isDigit = true := by
        have hnumeral := classify_eq_int_iff.1 (classify_eq_some_iff.2 h')
        rw [String.toList_append, hu] at hnumeral
        exact fun c hc => hnumeral.isDigit_of_mem_tail (List.mem_append_right rest hc)
      cases t with
      | int n => exact ⟨⟨n, rfl⟩, hdigits⟩
      | label name => exact absurd (hkind'.1 (hkind.2 ⟨name, rfl⟩)) (by simp)
  | label name' =>
      obtain ⟨name, rfl⟩ := hkind.1 (hkind'.2 ⟨name', rfl⟩)
      obtain ⟨-, rfl⟩ := h.isIdentifier
      obtain ⟨hname', hlonger⟩ := h'.isIdentifier
      exact absurd (eq_empty_of_append_colon hname' hlonger) hv

/-- The grammar of words, whatever characters they hold. A word is an integer just if it is a
    numeral whose integer has 32 bits, it is the definition of a label just if it is an identifier
    with a colon behind it, and it is no token otherwise. So every cell value is read back from its
    text. A word that goes on behind a token is none, unless the token is an integer and only
    digits follow. -/
theorem classify_grammar (w : String) :
    (∀ n : Int, (∃ v : Cell, classify w = some (.int v) ∧ v.toInt = n) ↔
      Text.Numeral.Spells w.toList n ∧ -2 ^ 31 ≤ n ∧ n < 2 ^ 31) ∧
    (∀ name, classify w = some (.label name) ↔
      ∃ first rest, name.toList = first :: rest ∧ (Text.isLetter first = true ∨ first = '_') ∧
        (∀ c ∈ rest, Text.isLetter c = true ∨ Text.isNumber c = true ∨ c = '_') ∧
        w = name ++ ":") ∧
    (classify w = none ↔ ∀ t, ¬ Spells w t) ∧
    (∀ v : Cell, int? w = some v ↔ classify w = some (.int v)) ∧
    (∀ v : Cell, int? v.text = some v) ∧
    ∀ u v t, w = u ++ v → v ≠ "" → Spells u t →
      classify w = none ∨ (∃ n, t = .int n) ∧ ∀ c ∈ v.toList, c.isDigit = true := by
  refine ⟨fun n => ?_, fun name => classify_eq_label_iff, ?_, fun v => ?_, int?_text, ?_⟩
  · simp only [classify_eq_int_iff, ← Cell.exists_toInt_eq_iff]
    constructor
    · rintro ⟨v, hv, rfl⟩
      exact ⟨hv, v, rfl⟩
    · rintro ⟨hn, v, rfl⟩
      exact ⟨v, hn, rfl⟩
  · rw [Option.eq_none_iff_forall_ne_some]
    exact forall_congr' fun t => not_congr classify_eq_some_iff
  · exact int?_eq_some_iff_classify
  · rintro u v t rfl hv h
    cases hw : classify (u ++ v) with
    | none => exact .inl rfl
    | some t' => exact .inr (h.isDigit_of_append (classify_eq_some_iff.1 hw) hv)

theorem classify_grammar_goes_on : Spells "12" (.int 12) ∧ classify "12abc" = none := by
  have hspells : Spells "12" (.int 12) := classify_eq_some_iff.1 (by decide +kernel)
  refine ⟨hspells, ?_⟩
  rcases (classify_grammar "12abc").2.2.2.2.2 "12" "abc" _ rfl (by decide) hspells with h | ⟨-, h⟩
  · exact h
  · exact absurd (h 'a' (by decide)) (by decide)

end Token

end DecimalMachine
