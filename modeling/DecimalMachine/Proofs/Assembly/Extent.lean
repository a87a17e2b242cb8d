import DecimalMachine.Proofs.Assembly.Identifier
import DecimalMachine.Proofs.Assembly.Settling
import Mathlib.Algebra.GroupWithZero.Nat

set_option autoImplicit false

/-! # The extent of a program

How far a program reaches is bounded by the length of its text. A word takes a character and a blank
or a line feed to end it (`Text.two_mul_length_words_le`), and a statement emits at most one cell
for every word of its own line (`Source.sum_room_carry_le`). A cursor stands below the end of the
addresses that a line can name and the cells written before (`Pass.lt_of_mem_writes_runFrom`), so no
address that is written goes past the one by more than the other
(`lt_of_mem_writes_assemble`). -/

namespace DecimalMachine

/-! ## Texts -/

namespace Text

/-- The pieces of a list, each with one element more to end it, make up the list, with one more to
    end that. -/
theorem sum_length_splitOnP {α : Type} (p : α → Bool) (xs : List α) :
    ((xs.splitOnP p).map fun piece => piece.length + 1).sum = xs.length + 1 := by
  induction xs with
  | nil => simp
  | cons x xs ih =>
      rw [List.splitOnP_cons_eq_if_modifyHead, List.length_cons]
      split
      · simp only [List.map_cons, List.sum_cons, ih, List.length_nil]
        omega
      · obtain ⟨piece, pieces, hsplit⟩ := List.exists_cons_of_ne_nil (List.splitOnP_ne_nil p xs)
        rw [hsplit, List.map_cons, List.sum_cons] at ih
        simp only [hsplit, List.modifyHead_cons, List.map_cons, List.sum_cons, List.length_cons]
        omega

theorem two_mul_length_words_le (cs : List Char) : 2 * (words cs).length ≤ cs.length + 1 := by
  rw [words, List.length_map, ← sum_length_splitOnP isBlank cs]
  induction cs.splitOnP isBlank with
  | nil => exact Nat.le_refl 0
  | cons piece pieces ih =>
      cases piece with
      | nil =>
          simp only [List.filter_cons, List.isEmpty_nil, Bool.not_true, Bool.false_eq_true,
            if_false, List.map_cons, List.sum_cons]
          omega
      | cons c cs =>
          simp only [List.filter_cons, List.isEmpty_cons, Bool.not_false, if_true, List.map_cons,
            List.sum_cons, List.length_cons]
          omega

theorem sum_length_lines (text : String) :
    ((lines text).map fun line => line.length + 1).sum = text.length + 1 := by
  exact sum_length_splitOnP _ text.toList

end Text

/-! ## Statements -/

namespace Stmt

/-- How many cells a statement can emit. -/
def room : Stmt → Nat
  | put _ (.instr _ _) => 2
  | put _ _ => 1
  | _ => 0

theorem length_cells_emit_le_room (known : Lookup) (wide : Bool) (s : Stmt) :
    (s.emit known wide).cells.length ≤ s.room := by
  cases s with
  | blank => exact Nat.le_refl 0
  | label => exact Nat.le_refl 0
  | overlong => exact Nat.le_refl 0
  | directive name argument =>
      simp only [emit]
      split
      · exact Nat.le_refl 0
      · split <;> exact Nat.le_refl 0
  | put place item =>
      simp only [emit]
      split
      · exact Nat.zero_le _
      · cases item with
        | value v => exact Nat.le_refl 1
        | word w => exact length_cells_emitWord_le place w
        | instr mnemonic word => exact length_cells_emitInstr_le known wide mnemonic word

theorem room_put_ofWord (place : Option Place) (w : String) :
    (put place (.ofWord w)).room = 1 := by
  unfold Item.ofWord
  cases Token.int? w <;> rfl

theorem room_ofWords_le (ws : List String) : (ofWords ws).room ≤ ws.length := by
  match ws with
  | [] => exact Nat.le_refl 0
  | [w] =>
      show (ofOne w).room ≤ 1
      unfold ofOne
      split
      · exact Nat.zero_le 1
      · exact Nat.le_of_eq (room_put_ofWord none w)
  | [first, second] =>
      show (ofTwo first second).room ≤ 2
      unfold ofTwo
      split
      · exact Nat.zero_le 2
      · rw [room_put_ofWord]
        exact Nat.le_succ 1
      · split
        · rw [room_put_ofWord]
          exact Nat.le_succ 1
        · exact Nat.le_refl 2
  | [first, mnemonic, operand] =>
      show (ofThree first mnemonic operand).room ≤ 3
      unfold ofThree
      split <;> exact Nat.le_succ 2
  | _ :: _ :: _ :: _ :: _ => exact Nat.zero_le _

/-- A label at the start of a line gives no room for a cell. -/
theorem room_ofWords_label_le {w name : String} (h : Token.label? w = some name)
    (ws : List String) : (ofWords (w :: ws)).room ≤ ws.length := by
  have huncolon : uncolon? w = some name := by
    obtain ⟨-, rfl⟩ := Token.label?_eq_some_iff.1 h
    exact uncolon?_append_colon name
  match ws with
  | [] =>
      show (ofOne w).room ≤ 0
      rw [ofOne, Token.int?_of_label? h, huncolon]
      exact Nat.le_refl 0
  | [second] =>
      show (ofTwo w second).room ≤ 1
      rw [ofTwo, huncolon]
      cases undot? w with
      | none => exact Nat.le_of_eq (room_put_ofWord _ second)
      | some d => exact Nat.zero_le 1
  | [mnemonic, operand] =>
      show (ofThree w mnemonic operand).room ≤ 2
      rw [ofThree, huncolon]
      exact Nat.le_refl 2
  | _ :: _ :: _ :: _ => exact Nat.zero_le _

end Stmt

namespace Source

/-- Statements have no more room than their own lines have words, as a label that was carried to a
    line gives none. -/
theorem sum_room_carry_le {carried : List String}
    (h : carried = [] ∨ isLoneLabel carried = true) (ls : List (List String)) :
    ((carry carried ls).map fun ws => (Stmt.ofWords ws).room).sum ≤
      (ls.map (·.length)).sum := by
  induction ls generalizing carried with
  | nil => exact Nat.le_refl 0
  | cons ws rest ih =>
      have hline : (Stmt.ofWords (carried ++ ws)).room ≤ ws.length := by
        rcases h with rfl | h
        · exact Stmt.room_ofWords_le ws
        · unfold isLoneLabel at h
          split at h
          · obtain ⟨name, hname⟩ := Option.isSome_iff_exists.1 h
            exact Stmt.room_ofWords_label_le hname ws
          · exact absurd h Bool.false_ne_true
      have hcarried : (if isLoneLabel (carried ++ ws) then carried ++ ws else []) = [] ∨
          isLoneLabel (if isLoneLabel (carried ++ ws) then carried ++ ws else []) = true := by
        split
        · rename_i hlone
          exact .inr hlone
        · exact .inl rfl
      have hrest := ih hcarried
      simp only [carry, List.map_cons, List.sum_cons]
      omega

theorem two_mul_sum_room_le (source : String) :
    2 * ((statements source).map Stmt.room).sum ≤ source.length + 1 := by
  have hrooms : ((statements source).map Stmt.room).sum ≤
      (((Text.lines source).map written).map (·.length)).sum := by
    rw [statements, List.map_map]
    exact sum_room_carry_le (.inl rfl) _
  have hwords : 2 * (((Text.lines source).map written).map (·.length)).sum ≤
      ((Text.lines source).map fun line => line.length + 1).sum := by
    induction Text.lines source with
    | nil => exact Nat.le_refl 0
    | cons line rest ih =>
        have hline := Text.two_mul_length_words_le (line.takeWhile (· != ';'))
        have htake := (List.takeWhile_sublist (l := line) (p := (· != ';'))).length_le
        simp only [List.map_cons, List.sum_cons, written]
        omega
  rw [Text.sum_length_lines] at hwords
  omega

end Source

/-! ## Passes -/

namespace Pass

variable (before : Lookup) (lay : Layout)

/-- A pass writes at most the cells that the statements of its lines have room for. -/
theorem length_writes_runFrom_le (lines : List Line) :
    ((runFrom before lay lines).entries.flatMap (·.writes)).length ≤
      (lines.map (·.stmt.room)).sum := by
  induction lines generalizing lay with
  | nil => exact Nat.le_refl 0
  | cons line rest ih =>
      have hline := Stmt.length_cells_emit_le_room (lay.seen before line) line.wide line.stmt
      have hrest := ih (lay.step before line).2
      simp only [runFrom, List.flatMap_cons, List.length_append, List.map_cons, List.sum_cons,
        Layout.step_fst, List.length_map, List.length_zipIdx, Layout.emission]
      omega

/-- What a pass writes stays below the addresses that a line can name and the cells written. -/
theorem lt_of_mem_writes_runFrom {lines : List Line} {b : Nat} (hcode : lay.cursors.code ≤ b)
    (hdata : lay.cursors.data ≤ b) (hb : 0x7fffffff ≤ b) {a : Nat} {v : Cell}
    (h : (a, v) ∈ (runFrom before lay lines).entries.flatMap (·.writes)) :
    a < b + ((runFrom before lay lines).entries.flatMap (·.writes)).length := by
  induction lines generalizing lay b with
  | nil => exact absurd h List.not_mem_nil
  | cons line rest ih =>
      have hsite : (line.stmt.site? lay.cursors).getD 0 ≤ b :=
        Cursors.getD_site?_le hcode hdata hb
      obtain ⟨hcode', hdata'⟩ := Cursors.after_le (s := line.stmt) hcode hdata hb
        (lay.emission before line).cells.length
      simp only [runFrom, List.flatMap_cons, List.length_append, Layout.step_fst, List.length_map,
        List.length_zipIdx] at h ⊢
      -- the cells of this line lie behind its site; for the others the bound has grown by these
      rcases List.mem_append.1 h with hline | hrest
      · obtain ⟨⟨w, c⟩, hmem, heq⟩ := List.mem_map.1 hline
        obtain ⟨rfl, rfl⟩ := Prod.mk.inj heq
        have hlt := List.snd_lt_add_of_mem_zipIdx hmem
        omega
      · have hlt := ih (lay.step before line).2 hcode' hdata' (by omega) hrest
        omega

theorem lt_of_mem_writes_run {before : Lookup} {lines : List Line} {a : Nat} {v : Cell}
    (h : (a, v) ∈ (run before lines).object.writes) :
    a < 0x7fffffff + (lines.map (·.stmt.room)).sum := by
  have hlt := lt_of_mem_writes_runFrom before {} (Nat.zero_le _) (Nat.zero_le _)
    (Nat.le_refl 0x7fffffff) h
  have hcount := length_writes_runFrom_le before {} lines
  omega

end Pass

/-- No address that an assembled text writes goes past the addresses that a line can name by more
    than half the length of the text. -/
theorem lt_of_mem_writes_assemble {source : String} {a : Nat} {v : Cell}
    (h : (a, v) ∈ (assemble source).object.writes) :
    a < 0x7fffffff + (source.length + 1) / 2 := by
  obtain ⟨lines, hrun, hstmts, -⟩ := Source.exists_settled_eq_run source
  have hrooms : lines.map (·.stmt.room) = (Source.statements source).map Stmt.room := by
    rw [← hstmts, List.map_map]
    rfl
  simp only [assemble] at h
  rw [hrun] at h
  have hlt := Pass.lt_of_mem_writes_run h
  rw [hrooms] at hlt
  have hroom := Source.two_mul_sum_room_le source
  omega

end DecimalMachine
