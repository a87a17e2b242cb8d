import DecimalMachine.Proofs.Assembly.Monotone
import DecimalMachine.Proofs.Source.Token

set_option autoImplicit false

/-! # Identifiers

A label is meant to be an identifier: a letter or an underscore, and then letters, numbers and
underscores. An identifier is plain (`Token.isPlain_of_isIdentifier`): it holds no mark of a mode,
and as no number starts with a letter, it is none. -/

namespace DecimalMachine.Token

/-- Whether a name is spelled with the characters of a label. -/
def isIdentifier (name : String) : Bool :=
  match name.toList with
  | [] => false
  | c :: cs => isLabelStart c && cs.all isLabelPart

/-! ## Characters -/

theorem isLabelPart_of_isLabelStart {c : Char} (h : isLabelStart c = true) :
    isLabelPart c = true := by
  simp only [isLabelStart, isLabelPart, Bool.or_eq_true] at h ⊢
  rcases h with h | h
  · exact .inl (.inl h)
  · exact .inr h

theorem isLabelPart_of_mem {name : String} (h : isIdentifier name = true) {c : Char}
    (hc : c ∈ name.toList) : isLabelPart c = true := by
  unfold isIdentifier at h
  split at h
  · exact absurd h Bool.false_ne_true
  · rename_i hname
    rw [hname] at hc
    obtain ⟨hstart, hall⟩ := Bool.and_eq_true_iff.1 h
    rcases List.mem_cons.1 hc with rfl | hc
    · exact isLabelPart_of_isLabelStart hstart
    · exact List.all_eq_true.1 hall c hc

/-- No letter is a digit, and the underscore is none. -/
theorem not_isDigit_of_isLabelStart {c : Char} (h : isLabelStart c = true) :
    ¬ c.isDigit = true := by
  intro hdigit
  obtain ⟨hlow, hhigh⟩ := Text.Numeral.toNat_of_isDigit hdigit
  have hletter : ∀ n < 10, Text.inRanges Text.letterRanges (48 + n) = false := by
    decide +kernel
  have hnone : Text.isLetter c = false := by
    have hc := hletter (c.toNat - 48) (by omega)
    rwa [Nat.add_sub_cancel' hlow] at hc
  rw [isLabelStart, hnone, Bool.false_or, beq_iff_eq] at h
  subst h
  exact absurd hdigit (by decide)

/-! ## Names -/

theorem scan?_eq_none {c : Char} (cs : List Char) (h : isLabelStart c = true) :
    Text.Numeral.scan? (c :: cs) = none := by
  have hdigit := not_isDigit_of_isLabelStart h
  unfold Text.Numeral.scan?
  split
  · rename_i heq
    obtain rfl := (List.cons.inj heq).1
    exact absurd h (by decide +kernel)
  · rename_i heq
    obtain rfl := (List.cons.inj heq).1
    exact absurd h (by decide +kernel)
  · simp [Text.Numeral.magnitude?, hdigit]

/-- What starts like a label is no number, whatever else it is. -/
theorem int?_of_isIdentifier {name : String} (h : isIdentifier name = true) : int? name = none := by
  unfold isIdentifier at h
  split at h
  · exact absurd h Bool.false_ne_true
  · rename_i c cs hname
    have hscan := scan?_eq_none cs (Bool.and_eq_true_iff.1 h).1
    unfold int? classify scan
    rw [hname, hscan]
    cases scanLabel? (c :: cs) with
    | none => rfl
    | some r =>
        obtain ⟨l, _ | _⟩ := r <;> rfl

theorem isPlain_of_isIdentifier {name : String} (h : isIdentifier name = true) :
    Operand.IsPlain name := by
  refine ⟨?_, ?_, ?_, int?_of_isIdentifier h⟩
  all_goals
    intro hc
    exact absurd (isLabelPart_of_mem h hc) (by decide +kernel)

/-- An identifier with a colon behind it is the definition of a label. -/
theorem label?_append_colon {name : String} (h : isIdentifier name = true) :
    label? (name ++ ":") = some name := by
  unfold isIdentifier at h
  split at h
  · exact absurd h Bool.false_ne_true
  · rename_i c cs hname
    obtain ⟨hstart, hparts⟩ := Bool.and_eq_true_iff.1 h
    have hchars : (name ++ ":").toList = c :: (cs ++ [':']) := by
      rw [String.toList_append, hname]
      rfl
    have hcolon : isLabelPart ':' = false := by
      decide +kernel
    have htake : (cs ++ [':']).takeWhile isLabelPart = cs := by
      rw [List.takeWhile_append_of_pos (List.all_eq_true.1 hparts)]
      simp [hcolon]
    have hdrop : (cs ++ [':']).dropWhile isLabelPart = [':'] := by
      rw [List.dropWhile_append_of_pos (List.all_eq_true.1 hparts)]
      simp [hcolon]
    have hscan : scanLabel? (c :: (cs ++ [':'])) = some (name, []) := by
      rw [scanLabel?, if_pos hstart, hdrop, htake, ← hname, String.ofList_toList]
      rfl
    simp [label?, classify, scan, hchars, scan?_eq_none _ hstart, hscan]

/-- The definitions of labels are the identifiers with a colon behind them. -/
theorem label?_eq_some_iff {w name : String} :
    label? w = some name ↔ isIdentifier name = true ∧ w = name ++ ":" := by
  refine ⟨fun h => ?_, fun ⟨hname, hw⟩ => hw ▸ label?_append_colon hname⟩
  have hscan := scanLabel?_of_label? h
  cases hw : w.toList with
  | nil => simp [hw, scanLabel?] at hscan
  | cons c cs =>
      rw [hw, scanLabel?] at hscan
      split at hscan
      · rename_i hstart
        split at hscan
        · rename_i rest hdrop
          obtain ⟨rfl, rfl⟩ := Prod.mk.inj (Option.some.inj hscan)
          refine ⟨?_, ?_⟩
          · simp only [isIdentifier, String.toList_ofList, hstart, Bool.true_and]
            exact List.all_takeWhile
          · rw [← String.toList_inj, String.toList_append, String.toList_ofList, hw]
            have hcolon : ":".toList = cs.dropWhile isLabelPart := hdrop.symm
            rw [hcolon, List.cons_append, List.takeWhile_append_dropWhile]
        · exact absurd hscan (by simp)
      · exact absurd hscan (by simp)

end DecimalMachine.Token

namespace DecimalMachine.Stmt

/-! ## Names with a colon -/

theorem uncolon?_append_colon (name : String) : uncolon? (name ++ ":") = some name := by
  simp [uncolon?]

theorem eq_append_colon_of_uncolon? {w name : String} (h : uncolon? w = some name) :
    w = name ++ ":" := by
  unfold uncolon? at h
  split at h
  · rename_i cs hcs
    obtain rfl := Option.some.inj h
    have hw : w.toList = cs.reverse ++ [':'] := by
      rw [← List.reverse_reverse w.toList, hcs, List.reverse_cons]
    rw [← String.toList_inj, hw]
    simp
  · exact absurd h (by simp)

/-- The definition of an identifier is no directive. -/
theorem undot?_append_colon {name : String} (h : Token.isIdentifier name = true) :
    undot? (name ++ ":") = none := by
  unfold Token.isIdentifier at h
  split at h
  · exact absurd h Bool.false_ne_true
  · rename_i c cs hchars
    have hc : c ≠ '.' := by
      rintro rfl
      exact absurd (Bool.and_eq_true_iff.1 h).1 (by decide +kernel)
    simp [undot?, hchars, hc]

/-- The definition of an identifier is no number. -/
theorem int?_append_colon {name : String} (h : Token.isIdentifier name = true) :
    Token.int? (name ++ ":") = none :=
  Token.int?_of_label? (Token.label?_append_colon h)

end DecimalMachine.Stmt

namespace DecimalMachine.Source

/-! ## Lines of one word -/

theorem isLoneLabel_of_isIdentifier {name : String} (h : Token.isIdentifier name = true) :
    isLoneLabel [name ++ ":"] = true := by
  rw [isLoneLabel, Token.label?_append_colon h]
  rfl

/-- A line is a label alone if it is an identifier with a colon and nothing else. -/
theorem isLoneLabel_eq_true_iff {line : List String} :
    isLoneLabel line = true ↔ ∃ name, Token.isIdentifier name = true ∧ line = [name ++ ":"] := by
  constructor
  · intro h
    unfold isLoneLabel at h
    split at h
    · obtain ⟨name, hlabel⟩ := Option.isSome_iff_exists.1 h
      obtain ⟨hname, rfl⟩ := Token.label?_eq_some_iff.1 hlabel
      exact ⟨name, hname, rfl⟩
    · exact absurd h Bool.false_ne_true
  · rintro ⟨name, hname, rfl⟩
    exact isLoneLabel_of_isIdentifier hname

end DecimalMachine.Source
