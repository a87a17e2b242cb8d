import DecimalMachine.Proofs.Assembly.CodeLines

set_option autoImplicit false

/-! # The cell of a label alone

What a label alone will name shows only on the line that it is carried to, and its own line is found
at the cell that the next code goes to, whatever that line puts there. No line in between moves a
cursor (`Source.cursorsBefore_of_labels`), so the label names the cell that its line is found at if
it names code; if it names a value, it does so only where the two cursors meet
(`lineAddress?_of_carried_label`). -/

namespace DecimalMachine

/-! ## Labels in front of labels -/

/-- No mnemonic ends with a colon. -/
theorem Opcode.ofWord?_append_colon (name : String) : ofWord? (name ++ ":") = none := by
  refine List.find?_eq_none.2 fun op _ h => ?_
  have hcolon : ':' ∈ op.mnemonic.toList := by
    rw [beq_iff_eq.1 h]
    simp [Text.upper, Text.upperChar]
  exact absurd hcolon (by cases op <;> decide)

namespace Stmt

/-- A statement that defines a label puts an item at it. -/
theorem exists_of_defines? {s : Stmt} {name : String} (h : s.defines? = some name) :
    ∃ item, s = .put (some (.label name)) item := by
  unfold defines? at h
  split at h
  · obtain rfl := Option.some.inj h
    exact ⟨_, rfl⟩
  · exact absurd h (by simp)

/-- A label in front of a label takes it for a mnemonic, and there is no such mnemonic. -/
theorem defects_emit_labels {name other : String} (hname : Token.isIdentifier name = true)
    (hother : Token.isIdentifier other = true) (known : Lookup) (wide : Bool) :
    ((ofWords [name ++ ":", other ++ ":"]).emit known wide).defects = [.unknownMnemonic] := by
  have hstmt : ofWords [name ++ ":", other ++ ":"] =
      .put (some (.label name)) (.word (other ++ ":")) := by
    simp [ofWords, ofTwo, undot?_append_colon hname, uncolon?_append_colon, Item.ofWord,
      int?_append_colon hother]
  have hdefects : ((Stmt.put (some (.label name)) (.word (other ++ ":"))).emit known wide).defects =
      notHalt (other ++ ":") := by
    simp only [emit, isMisplaced, Bool.false_eq_true, if_false]
    rfl
  rw [hstmt, hdefects, notHalt, Opcode.ofWord?_append_colon]

end Stmt

namespace Source

/-- In a text without defects nothing is carried to a line that is a label alone. -/
theorem getElem?_lines_of_clean {source : String} {o : Object}
    (hclean : assembleClean source = .ok o) {n : Nat} {name : String}
    (hname : Token.isIdentifier name = true)
    (hwritten : writtenLine? source (n + 1) = some [name ++ ":"]) :
    (lines source)[n]? = some [name ++ ":"] := by
  cases n with
  | zero => exact (getElem?_lines_zero source).trans hwritten
  | succ n =>
      have hn : n < (lines source).length := by
        have hlt := (List.getElem?_eq_some_iff.1 hwritten).1
        rw [List.length_map, ← length_lines] at hlt
        exact Nat.lt_of_succ_lt hlt
      have hline := List.getElem?_eq_getElem hn
      have hnext := getElem?_lines_succ hline
      rw [hwritten, Option.map_some] at hnext
      rcases handedOn_eq_nil_or (lines source)[n] with hnone | ⟨hhanded, hlone⟩
      · rw [hnext, hnone]
        rfl
      · -- the line would be a label with the label that is written there behind it
        obtain ⟨other, hother, heq⟩ := isLoneLabel_eq_true_iff.1 hlone
        rw [hhanded, heq] at hnext
        have hs : (statements source)[n + 1]? =
            some (Stmt.ofWords [other ++ ":", name ++ ":"]) := by
          rw [statements, List.getElem?_map, hnext]
          rfl
        obtain ⟨_, _, _, _, _, _, _, hdefects, _⟩ := entry_of_clean hclean hs
        rw [Stmt.defects_emit_labels hother hname] at hdefects
        exact absurd hdefects (by simp)

/-! ## Cursors -/

/-- The cursors in front of a line, counted from 1. -/
def cursorsBefore (source : String) (line : Nat) : Cursors :=
  let p := Pass.settled (program source)
  (Layout.walk p.symbols.address? {} (p.lines.take (line - 1))).cursors

/-- A line is found where its statement stands at the cursors in front of it. -/
theorem lineAddress?_eq_site? {source : String} {line : Nat} {s : Stmt}
    (hs : statement? source line = some s) :
    (assemble source).object.symbols.lineAddress? line =
      if s.isMapped then s.site? (cursorsBefore source line) else none := by
  obtain ⟨n, e, rfl, he, rfl⟩ := exists_entry_of_statement? hs
  have hagain := Pass.again_settled (program source) wide_eq_false_of_mem_program
  have hentry := Pass.getElem?_entries_of_eq_run hagain.symm (Pass.getElem?_lines_of_entry he)
  rw [symbols_assemble, lineAddress?_of_entry he]
  have hsite : e.site? = e.line.stmt.site? (cursorsBefore source (n + 1)) :=
    congrArg Entry.site? (Option.some.inj (he.symm.trans hentry))
  rw [hsite]

/-- A label names the cell that the last line that defines it is found at. -/
theorem address?_of_lastDefines {source name : String} {line a : Nat}
    (hlast : LastDefines source name line)
    (ha : (assemble source).object.symbols.lineAddress? line = some a) :
    (assemble source).object.symbols.address? name = some a := by
  have hbinding := (labels_settled (b := ⟨a, line⟩)).2 ⟨hlast, ha⟩
  rw [Symbols.address?, hbinding, Option.map_some]

/-- Labels alone leave the cursors as they are. -/
theorem cursorsBefore_of_labels {source : String} {line next : Nat} (hline : 0 < line)
    (hle : line ≤ next)
    (h : ∀ i, line ≤ i → i < next → statement? source i = some .label) :
    cursorsBefore source next = cursorsBefore source line := by
  refine Pass.cursors_walk_take_of_labels _ {} _ (Nat.sub_le_sub_right hle 1) ?_
  intro i hi hnext l hl
  rw [Pass.lines, List.getElem?_map, Option.map_eq_some_iff] at hl
  obtain ⟨e, he, rfl⟩ := hl
  have hs := h (i + 1) (by omega) (by omega)
  exact Option.some.inj ((statement?_of_entry he).symm.trans hs)

/-- Only lines of the text define labels. -/
theorem le_length_of_defines? {source name : String} {line : Nat}
    (h : defines? source line = some name) : line ≤ (lines source).length := by
  obtain ⟨n, rfl⟩ := exists_eq_succ_of_defines? h
  obtain ⟨s, hs, -⟩ := Option.bind_eq_some_iff.1 h
  rw [statement?_eq_map, Option.map_eq_some_iff] at hs
  obtain ⟨_, hline, -⟩ := hs
  exact (List.getElem?_eq_some_iff.1 hline).1

/-- A line is an identifier with a colon and nothing else, and the next line that is not blank
    defines it as a label. -/
structure Carries (source name : String) (line next : Nat) : Prop where
  identifier : Token.isIdentifier name = true
  label : writtenLine? source line = some [name ++ ":"]
  lt : line < next
  blank : ∀ i, line < i → i < next → writtenLine? source i = some []
  defines : defines? source next = some name

/-- A label that is carried is on every line that it is carried over. -/
theorem Carries.statement?_eq_label {source name : String} {line next : Nat}
    (h : Carries source name line next) {o : Object} (hclean : assembleClean source = .ok o)
    {i : Nat} (hi : line ≤ i) (hnext : i < next) : statement? source i = some .label := by
  obtain ⟨hname, hlabel, -, hblank, -⟩ := h
  obtain ⟨n, rfl⟩ : ∃ n, line = n + 1 := by
    cases line with
    | zero => exact absurd hlabel (by simp [writtenLine?])
    | succ n => exact ⟨n, rfl⟩
  obtain ⟨k, rfl⟩ := Nat.exists_eq_add_one_of_ne_zero (show i ≠ 0 by omega)
  have hfirst := getElem?_lines_of_clean hclean hname hlabel
  have hline := getElem?_lines_of_blank hname hfirst hblank (show n ≤ k by omega) hnext
  rw [statement?_eq_map, hline, Option.map_some, Stmt.ofWords_loneLabel hname]

end Source

/-- In a text without defects, let a label alone be carried, maybe over blank lines, to the only
    line that defines the label, and let the cursors stand somewhere in front of that line. The
    lines from the label alone on are found at the code cursor, and the label names the cursor of
    the item behind it. So the label alone is found at the cell of its label if that is an
    instruction or a halt; if it is a value, just in case the two cursors stand at one cell. -/
theorem lineAddress?_of_carried_label {source name : String} {o : Object}
    (hclean : assembleClean source = .ok o) {line next : Nat}
    (hcarries : Source.Carries source name line next)
    (honly : ∀ i, Source.defines? source i = some name → i = next) :
    ∃ item, Source.statement? source next = some (.put (some (.label name)) item) ∧
      (∀ i, line ≤ i → i < next →
        o.symbols.lineAddress? i = some ((Source.cursorsBefore source next).next .code)) ∧
      o.symbols.address? name = some ((Source.cursorsBefore source next).next item.segment) ∧
      (item.segment = .code → o.symbols.lineAddress? line = o.symbols.address? name) ∧
      (item.segment = .data →
        (o.symbols.lineAddress? line = o.symbols.address? name ↔
          (Source.cursorsBefore source next).code = (Source.cursorsBefore source next).data)) := by
  obtain ⟨s, hs, hd⟩ := Option.bind_eq_some_iff.1 hcarries.defines
  obtain ⟨item, rfl⟩ := Stmt.exists_of_defines? hd
  have hsymbols : o.symbols = (assemble source).object.symbols :=
    congrArg Object.symbols (assembleClean_eq_ok hclean).1
  have hlabels : ∀ i, line ≤ i → i < next → Source.statement? source i = some .label :=
    fun i hi hnext => hcarries.statement?_eq_label hclean hi hnext
  have hlone : ∀ i, line ≤ i → i < next →
      o.symbols.lineAddress? i = some ((Source.cursorsBefore source next).next .code) := by
    intro i hi hnext
    have hlabel := hlabels i hi hnext
    obtain ⟨n, rfl⟩ := Source.exists_eq_succ_of_statement? hlabel
    rw [hsymbols, Source.lineAddress?_eq_site? hlabel,
      Source.cursorsBefore_of_labels (Nat.succ_pos n) (Nat.le_of_lt hnext)
        fun j hj => hlabels j (Nat.le_trans hi hj)]
    rfl
  have haddress : o.symbols.address? name =
      some ((Source.cursorsBefore source next).next item.segment) := by
    have hline := Source.lineAddress?_eq_site? hs
    rw [Stmt.isMapped_of_defines? hd, if_pos rfl,
      Cursors.site?_eq_next rfl (Stmt.isSome_site?_of_defines? hd _)] at hline
    have hlast : Source.LastDefines source name next :=
      ⟨hcarries.defines, fun i hi hd => absurd (honly i hd) (Nat.ne_of_gt hi)⟩
    rw [hsymbols]
    exact Source.address?_of_lastDefines hlast hline
  refine ⟨item, hs, hlone, haddress, ?_, ?_⟩
  · intro hcode
    rw [hlone line (Nat.le_refl _) hcarries.lt, haddress, hcode]
  · intro hdata
    rw [hlone line (Nat.le_refl _) hcarries.lt, haddress, hdata, Option.some.injEq]
    rfl

/-- The label is carried over a blank line and a comment to the first instruction. -/
theorem lineAddress?_of_carried_label_loop :
    ∃ o, assembleClean "LOOP:\n\n; count\nADD $1\nBRA LOOP" = .ok o ∧
      o.symbols.lineAddress? 1 = some 0 ∧ o.symbols.address? "LOOP" = some 0 := by
  have hclean : assembleClean "LOOP:\n\n; count\nADD $1\nBRA LOOP" = .ok _ :=
    assembleClean_of_findings_eq_nil (by decide +kernel)
  have hcarries : Source.Carries "LOOP:\n\n; count\nADD $1\nBRA LOOP" "LOOP" 1 4 := by
    refine ⟨by decide, by decide +kernel, by decide, fun i hi hnext => ?_, by decide +kernel⟩
    obtain rfl | rfl : i = 2 ∨ i = 3 := by omega
    · decide +kernel
    · decide +kernel
  have honly : ∀ i ≤ 5,
      Source.defines? "LOOP:\n\n; count\nADD $1\nBRA LOOP" i = some "LOOP" → i = 4 := by
    decide +kernel
  obtain ⟨item, hs, -, haddress, hcode, -⟩ := lineAddress?_of_carried_label hclean hcarries
    fun i hi => honly i ((Source.le_length_of_defines? hi).trans (by decide +kernel)) hi
  have hstatement : Source.statement? "LOOP:\n\n; count\nADD $1\nBRA LOOP" 4 =
      some (.put (some (.label "LOOP")) (.instr "ADD" "$1")) := by
    decide +kernel
  obtain ⟨-, rfl⟩ := Stmt.put.inj (Option.some.inj (hs.symm.trans hstatement))
  have hnext : (Source.cursorsBefore "LOOP:\n\n; count\nADD $1\nBRA LOOP" 4).next .code = 0 := by
    decide +kernel
  rw [Item.segment, hnext] at haddress
  exact ⟨_, hclean, (hcode rfl).trans haddress, haddress⟩

/-- A value is put at the data cursor, and the label alone in front of it is found at the code
    cursor. -/
theorem lineAddress?_of_label_of_value :
    ∃ o, assembleClean ".data 5\nX:\n15" = .ok o ∧
      Source.Carries ".data 5\nX:\n15" "X" 2 3 ∧
      (∀ i, Source.defines? ".data 5\nX:\n15" i = some "X" → i = 3) ∧
      o.symbols.lineAddress? 2 = some 0 ∧ o.symbols.address? "X" = some 5 := by
  have hclean : assembleClean ".data 5\nX:\n15" = .ok _ :=
    assembleClean_of_findings_eq_nil (by decide +kernel)
  have honly : ∀ i ≤ 3, Source.defines? ".data 5\nX:\n15" i = some "X" → i = 3 := by
    decide +kernel
  refine ⟨_, hclean, ⟨by decide, by decide +kernel, by decide, by omega, by decide +kernel⟩,
    fun i hi => honly i ((Source.le_length_of_defines? hi).trans (by decide +kernel)) hi,
    by decide +kernel, by decide +kernel⟩

end DecimalMachine
