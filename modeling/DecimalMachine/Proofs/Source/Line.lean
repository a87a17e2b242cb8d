import DecimalMachine.Source.Line

set_option autoImplicit false

/-! # Plain lines

A text of plain lines, with single spaces between the words and line feeds between the lines, is
split into just these words again (`Source.lines_plain`): no space, semicolon or line feed stands
within a word, and no line is carried into the next one unless it is a label alone. -/

namespace DecimalMachine

/-! ## Text -/

/-- A text put together from lines has these lines. -/
theorem Text.lines_intercalate {ts : List String} (hne : ts ≠ [])
    (h : ∀ t ∈ ts, '\n' ∉ t.toList) :
    Text.lines ("\n".intercalate ts) = ts.map String.toList := by
  have hplain : ∀ l ∈ ts.map String.toList, '\n' ∉ l := by
    intro l hl
    obtain ⟨t, ht, rfl⟩ := List.mem_map.1 hl
    exact h t ht
  rw [Text.lines, String.toList_intercalate]
  exact List.splitOn_intercalate '\n' hplain (by simpa using hne)

namespace Source

/-! ## Words -/

/-- A word as it stands in a line: it is not empty, and holds neither blanks nor semicolons. -/
def IsWord (w : String) : Prop :=
  w.toList ≠ [] ∧ ∀ c ∈ w.toList, Text.isBlank c = false ∧ c ≠ ';'

instance (w : String) : Decidable (IsWord w) :=
  decidable_of_iff
    ((!w.toList.isEmpty && w.toList.all fun c => !Text.isBlank c && c != ';') = true)
    (by simp [IsWord])

theorem toList_plain_cons (w v : String) (ws : List String) :
    (plain (w :: v :: ws)).toList = w.toList ++ ' ' :: (plain (v :: ws)).toList := by
  simp [plain, String.toList_intercalate]

theorem toList_plain_singleton (w : String) : (plain [w]).toList = w.toList := by
  simp [plain]

theorem mem_toList_plain {ws : List String} {c : Char} (h : c ∈ (plain ws).toList) :
    c = ' ' ∨ ∃ w ∈ ws, c ∈ w.toList := by
  induction ws with
  | nil => simp [plain] at h
  | cons w ws ih =>
      cases ws with
      | nil =>
          rw [toList_plain_singleton] at h
          exact Or.inr ⟨w, List.mem_cons_self, h⟩
      | cons v ws =>
          rw [toList_plain_cons, List.mem_append, List.mem_cons] at h
          rcases h with h | rfl | h
          · exact Or.inr ⟨w, List.mem_cons_self, h⟩
          · exact Or.inl rfl
          · rcases ih h with rfl | ⟨u, hu, hc⟩
            · exact Or.inl rfl
            · exact Or.inr ⟨u, List.mem_cons_of_mem _ hu, hc⟩

theorem splitOnP_isBlank {w : String} (h : IsWord w) :
    w.toList.splitOnP Text.isBlank = [w.toList] :=
  List.splitOnP_eq_singleton fun c hc => (h.2 c hc).1

/-- The words of a text that starts with a word and a space. -/
theorem words_append_cons {w : String} (h : IsWord w) (cs : List Char) :
    Text.words (w.toList ++ ' ' :: cs) = w :: Text.words cs := by
  rw [Text.words, List.splitOnP_append_cons _ _ (show Text.isBlank ' ' = true by decide),
    splitOnP_isBlank h, List.filter_append, List.map_append, ← Text.words]
  simp [h.1]

/-- The words of a plain line are those it was made of. -/
theorem words_plain {ws : List String} (h : ∀ w ∈ ws, IsWord w) :
    Text.words (plain ws).toList = ws := by
  induction ws with
  | nil => simp [plain, Text.words, List.splitOnP_nil]
  | cons w ws ih =>
      have hw := h w List.mem_cons_self
      cases ws with
      | nil =>
          rw [toList_plain_singleton, Text.words, splitOnP_isBlank hw]
          simp [hw.1]
      | cons v ws =>
          rw [toList_plain_cons, words_append_cons hw,
            ih fun u hu => h u (List.mem_cons_of_mem _ hu)]

theorem written_plain {ws : List String} (h : ∀ w ∈ ws, IsWord w) :
    written (plain ws).toList = ws := by
  have htake : (plain ws).toList.takeWhile (· != ';') = (plain ws).toList := by
    have hall : ∀ c ∈ (plain ws).toList, (c != ';') = true := by
      intro c hc
      rw [bne_iff_ne]
      rcases mem_toList_plain hc with rfl | ⟨w, hw, hc⟩
      · decide
      · exact ((h w hw).2 c hc).2
    simpa using @List.takeWhile_append_of_pos _ _ _ [] hall
  rw [written, htake, words_plain h]

/-- A line that starts with a word and a space has this word in front of those that follow. -/
theorem written_append_cons {w : String} (h : IsWord w) (cs : List Char) :
    written (w.toList ++ ' ' :: cs) = w :: written cs := by
  have htake : (w.toList ++ ' ' :: cs).takeWhile (· != ';') =
      w.toList ++ ' ' :: cs.takeWhile (· != ';') := by
    rw [List.takeWhile_append_of_pos fun c hc => bne_iff_ne.2 (h.2 c hc).2]
    rfl
  rw [written, htake, words_append_cons h, written]

/-- What stands in a piece of a text has no separator, and stands in the text. -/
theorem mem_of_mem_splitOnP {α : Type} {p : α → Bool} {xs piece : List α}
    (h : piece ∈ xs.splitOnP p) {x : α} (hx : x ∈ piece) : p x = false ∧ x ∈ xs := by
  induction xs generalizing piece with
  | nil =>
      rw [List.splitOnP_nil, List.mem_singleton] at h
      simp [h] at hx
  | cons y ys ih =>
      rw [List.splitOnP_cons_eq_if_modifyHead] at h
      split at h
      · rcases List.mem_cons.1 h with rfl | h
        · simp at hx
        · exact (ih h hx).imp_right (List.mem_cons_of_mem y)
      · rename_i hy
        obtain ⟨head, pieces, hsplit⟩ := List.exists_cons_of_ne_nil (List.splitOnP_ne_nil p ys)
        rw [hsplit, List.modifyHead_cons] at h
        rw [hsplit] at ih
        rcases List.mem_cons.1 h with rfl | h
        · rcases List.mem_cons.1 hx with rfl | hx
          · exact ⟨by simpa using hy, List.mem_cons_self⟩
          · exact (ih List.mem_cons_self hx).imp_right (List.mem_cons_of_mem y)
        · exact (ih (List.mem_cons_of_mem _ h) hx).imp_right (List.mem_cons_of_mem y)

/-- The words that a line is split into are words. -/
theorem isWord_of_mem_written {cs : List Char} {w : String} (h : w ∈ written cs) : IsWord w := by
  obtain ⟨piece, hpiece, rfl⟩ := List.mem_map.1 h
  obtain ⟨hpiece, hne⟩ := List.mem_filter.1 hpiece
  refine ⟨by simpa using hne, fun c hc => ?_⟩
  rw [String.toList_ofList] at hc
  obtain ⟨hblank, hmem⟩ := mem_of_mem_splitOnP hpiece hc
  exact ⟨hblank, bne_iff_ne.1 (List.all_eq_true.1 List.all_takeWhile c hmem)⟩

/-! ## Lines -/

/-- Nothing is carried over lines of which none is a label alone. -/
theorem carry_eq_self {ls : List (List String)} (h : ∀ ws ∈ ls, isLoneLabel ws = false) :
    carry [] ls = ls := by
  induction ls with
  | nil => rfl
  | cons ws rest ih =>
      simp only [carry, List.nil_append, h ws List.mem_cons_self, Bool.false_eq_true, if_false]
      rw [ih fun us hus => h us (List.mem_cons_of_mem _ hus)]

/-- What is carried out of some lines depends on them alone. -/
theorem exists_carry_append (carried : List String) (ls : List (List String)) :
    ∃ out, ∀ rest, carry carried (ls ++ rest) = carry carried ls ++ carry out rest := by
  induction ls generalizing carried with
  | nil => exact ⟨carried, fun _ => rfl⟩
  | cons ws ls ih =>
      obtain ⟨out, hout⟩ := ih (if isLoneLabel (carried ++ ws) then carried ++ ws else [])
      exact ⟨out, fun rest => congrArg (_ :: ·) (hout rest)⟩

/-- If nothing is carried to a line, nothing is carried out of the lines before it. -/
theorem carry_append_of_getElem? {before rest : List (List String)} {x : List String}
    (h : (carry [] (before ++ x :: rest))[before.length]? = some x) (rest' : List (List String)) :
    carry [] (before ++ rest') = carry [] before ++ carry [] rest' := by
  obtain ⟨out, hout⟩ := exists_carry_append [] before
  have hnone : out = [] := by
    rw [hout, List.getElem?_append_right (Nat.le_of_eq (length_carry _ _)), length_carry,
      Nat.sub_self, carry, List.getElem?_cons_zero, Option.some.injEq] at h
    exact List.append_left_eq_self.1 h
  rw [hout, hnone]

/-- Two lines to which nothing is carried, and from which nothing is, are carried over in either
    order. -/
theorem carry_swap {before after : List (List String)} {x y : List String}
    (hfirst : (carry [] (before ++ x :: y :: after))[before.length]? = some x)
    (hx : isLoneLabel x = false) (hy : isLoneLabel y = false) :
    ∃ before' after', carry [] (before ++ x :: y :: after) = before' ++ x :: y :: after' ∧
      carry [] (before ++ y :: x :: after) = before' ++ y :: x :: after' := by
  refine ⟨carry [] before, carry [] after, ?_, ?_⟩
  · rw [carry_append_of_getElem? hfirst]
    simp [carry, hx, hy]
  · rw [carry_append_of_getElem? hfirst]
    simp [carry, hx, hy]

/-- A label alone and the line after it, if that is not blank, are carried over like a blank line
    and the label in front of the next one. -/
theorem carry_loneLabel {before after : List (List String)} {w : String} {y : List String}
    (hfirst : (carry [] (before ++ [w] :: y :: after))[before.length]? = some [w])
    (hw : isLoneLabel [w] = true) (hy : y ≠ []) :
    ∃ before' after', before'.length = before.length ∧
      carry [] (before ++ [w] :: y :: after) = before' ++ [w] :: (w :: y) :: after' ∧
      carry [] (before ++ [] :: (w :: y) :: after) = before' ++ [] :: (w :: y) :: after' := by
  obtain ⟨v, ws, rfl⟩ := List.exists_cons_of_ne_nil hy
  have hlong : isLoneLabel (w :: v :: ws) = false := rfl
  refine ⟨carry [] before, carry [] after, length_carry _ _, ?_, ?_⟩
  · rw [carry_append_of_getElem? hfirst]
    simp [carry, hw, hlong]
  · rw [carry_append_of_getElem? hfirst]
    simp [carry, isLoneLabel]

/-- What a line hands on to the next one. -/
def handedOn (line : List String) : List String :=
  if isLoneLabel line then line else []

theorem handedOn_of_isLoneLabel {line : List String} (h : isLoneLabel line = true) :
    handedOn line = line :=
  if_pos h

theorem handedOn_eq_nil_or (line : List String) :
    handedOn line = [] ∨ handedOn line = line ∧ isLoneLabel line = true := by
  unfold handedOn
  split
  · rename_i h
    exact .inr ⟨rfl, h⟩
  · exact .inl rfl

/-- A line has what the line before it hands on in front of its own words. -/
theorem getElem?_carry_succ {carried : List String} {ls : List (List String)} {n : Nat}
    {line : List String} (h : (carry carried ls)[n]? = some line) :
    (carry carried ls)[n + 1]? = ls[n + 1]?.map (handedOn line ++ ·) := by
  induction ls generalizing carried n with
  | nil => exact absurd h (by simp [carry])
  | cons ws rest ih =>
      cases n with
      | zero =>
          obtain rfl := Option.some.inj h
          cases rest <;> rfl
      | succ n => exact ih h

/-- A text of plain lines has the words that its lines were made of. -/
theorem lines_plain {ls : List (List String)} (hne : ls ≠ [])
    (hwords : ∀ ws ∈ ls, ∀ w ∈ ws, IsWord w) (hlabel : ∀ ws ∈ ls, isLoneLabel ws = false) :
    Source.lines ("\n".intercalate (ls.map plain)) = ls := by
  have hlines : Text.lines ("\n".intercalate (ls.map plain)) =
      (ls.map plain).map String.toList := by
    refine Text.lines_intercalate (by simpa using hne) ?_
    intro t ht hmem
    obtain ⟨ws, hws, rfl⟩ := List.mem_map.1 ht
    rcases mem_toList_plain hmem with heq | ⟨w, hw, hc⟩
    · exact absurd heq (by decide)
    · exact absurd ((hwords ws hws w hw).2 _ hc).1 (by decide)
  have hwritten : ((ls.map plain).map String.toList).map written = ls := by
    rw [List.map_map, List.map_map]
    refine (List.map_congr_left ?_).trans (List.map_id ls)
    intro ws hws
    exact written_plain (hwords ws hws)
  rw [Source.lines, hlines, hwritten, carry_eq_self hlabel]

end Source

end DecimalMachine
