import DecimalMachine.Diagnostic
import DecimalMachine.Proofs.Assembly.CarriedLabel
import Mathlib.Data.List.DropRight

set_option autoImplicit false

/-! # The line that a diagnostic quotes

Assembly numbers the lines of a text by its line feeds, and a diagnostic is shown with a line of the
text as a reader sees it: without the line feed and the carriage return at the end of it, and
without an empty line at the end of the text (`Text.shown`). Both count alike, and the line that one
of them has in addition is empty (`Text.getElem?_rows`), so a diagnostic quotes the line of the text
(`Diagnostic.quote?_eq_shown`). That line is never blank: a defect belongs to the words that are
written there, and not to a label that is carried to the line
(`Source.exists_written_of_mem_findings`). -/

namespace DecimalMachine

namespace Text

variable {cs : List Char} {c : Char}

/-! ## Blanks at the ends -/

/-- A text is what is left of another one without the blanks at its ends. -/
structure TrimsTo (cs rest : List Char) : Prop where
  ends : ∃ front back, cs = front ++ rest ++ back ∧ ∀ c ∈ front ++ back, isBlank c = true
  first : ∀ c ∈ rest.head?, isBlank c = false
  last : ∀ c ∈ rest.getLast?, isBlank c = false

theorem trimsTo_trim (cs : List Char) : TrimsTo cs (trim cs) := by
  have htrim : trim cs = (cs.dropWhile isBlank).rdropWhile isBlank := rfl
  have hmiddle : trim cs ++ (cs.dropWhile isBlank).rtakeWhile isBlank = cs.dropWhile isBlank :=
    htrim ▸ List.rdropWhile_append_rtakeWhile
  refine ⟨⟨cs.takeWhile isBlank, (cs.dropWhile isBlank).rtakeWhile isBlank, ?_, ?_⟩, ?_, ?_⟩
  · rw [List.append_assoc, hmiddle, List.takeWhile_append_dropWhile]
  · intro c hc
    rcases List.mem_append.1 hc with hc | hc
    · exact List.mem_takeWhile_imp hc
    · exact List.mem_rtakeWhile_imp hc
  · intro c hc
    have hhead := List.head?_dropWhile_not isBlank cs
    rw [← hmiddle, List.head?_append, Option.mem_def.1 hc] at hhead
    exact hhead
  · intro c hc
    obtain ⟨hne, rfl⟩ := List.mem_getLast?_eq_getLast hc
    exact Bool.eq_false_iff.2 (List.rdropWhile_last_not isBlank (cs.dropWhile isBlank) hne)

/-- Nothing is left of a text if nothing but blanks was there. -/
theorem trim_eq_nil_iff : trim cs = [] ↔ ∀ c ∈ cs, isBlank c = true := by
  obtain ⟨⟨front, back, hcs, hblank⟩, hfirst, -⟩ := trimsTo_trim cs
  constructor
  · intro hnil c hc
    rw [hcs, hnil, List.append_nil] at hc
    exact hblank c hc
  · intro h
    cases htrim : trim cs with
    | nil => rfl
    | cons c rest =>
        have hc := h c (by rw [hcs, htrim]; simp)
        exact absurd (hfirst c (by rw [htrim]; rfl)) (by simp [hc])

/-- A blank at the end of a text is trimmed away. -/
theorem trim_append_blank (h : isBlank c = true) : trim (cs ++ [c]) = trim cs := by
  unfold trim
  rw [List.dropWhile_append]
  split
  · rename_i hnil
    rw [List.isEmpty_iff.1 hnil]
    simp [h]
  · exact List.rdropWhile_concat_pos isBlank (cs.dropWhile isBlank) c h

/-! ## Lines as they are shown -/

/-- A text cut behind every line feed. -/
def rows : List Char → List (List Char)
  | [] => []
  | c :: cs =>
      if c = '\n' then [c] :: rows cs else (c :: (rows cs).headD []) :: (rows cs).tail

/-- A row without the line feed at its end, and without a carriage return in front of that. -/
def unended (row : List Char) : List Char :=
  match row.reverse with
  | '\n' :: '\r' :: cs => cs.reverse
  | '\n' :: cs => cs.reverse
  | _ => row

/-- The lines of a text as a reader sees them. -/
def shown (text : String) : List (List Char) :=
  (rows text.toList).map unended

/-- The pieces between line feeds are the rows without their line feed. The last piece has none, and
    is no row if it is empty. -/
theorem getElem?_rows (cs : List Char) (n : Nat) :
    (rows cs)[n]? = (cs.splitOn '\n')[n]?.bind fun piece =>
      if n + 1 < (cs.splitOn '\n').length then some (piece ++ ['\n'])
      else if piece = [] then none else some piece := by
  unfold List.splitOn
  induction cs generalizing n with
  | nil => cases n <;> simp [rows]
  | cons c cs ih =>
      obtain ⟨piece, pieces, hpieces⟩ :=
        List.exists_cons_of_ne_nil (List.splitOnP_ne_nil (· == '\n') cs)
      rw [hpieces] at ih
      rw [rows, List.splitOnP_cons_eq_if_modifyHead, hpieces]
      by_cases hc : c = '\n'
      · subst hc
        cases n with
        | zero => simp
        | succ n => simpa using ih n
      · simp only [hc, if_false, beq_iff_eq, List.modifyHead_cons, List.length_cons] at ih ⊢
        cases n with
        | zero =>
            rw [List.headD_eq_head?_getD, List.head?_eq_getElem?, ih 0]
            simp only [List.getElem?_cons_zero, Option.bind_some]
            split
            · rfl
            · split <;> simp_all
        | succ n => simpa using ih (n + 1)

/-- What ends a row is blank. -/
theorem trim_unended (row : List Char) : trim (unended row) = trim row := by
  unfold unended
  split
  · rename_i cs hrow
    rw [List.reverse_eq_cons_iff.1 hrow, List.reverse_cons, trim_append_blank (by decide),
      trim_append_blank (by decide)]
  · rename_i cs _ hrow
    rw [List.reverse_eq_cons_iff.1 hrow, trim_append_blank (by decide)]
  · rfl

end Text

/-- A diagnostic quotes the line as it is shown, and the numbers of its lines are those of the lines
    that are shown. -/
theorem Diagnostic.quote?_eq_shown (source : String) (n : Nat) :
    quote? source (n + 1) =
      (Text.shown source)[n]?.map fun row => String.ofList (Text.trim row) := by
  have hlines : Text.lines source = source.toList.splitOn '\n' := rfl
  rw [Text.shown, List.getElem?_map, Text.getElem?_rows, quote?, hlines]
  cases hpiece : (source.toList.splitOn '\n')[n]? with
  | none => rfl
  | some piece =>
      have hlt := (List.getElem?_eq_some_iff.1 hpiece).1
      rw [Option.bind_some]
      cases piece with
      | nil =>
          -- an empty piece is shown unless it is the last one
          by_cases hlast : n + 1 = (source.toList.splitOn '\n').length
          · simp [hlast]
          · have hmore : n + 1 < (source.toList.splitOn '\n').length := by omega
            simp only [if_neg hlast, if_pos hmore]
            rfl
      | cons c cs =>
          by_cases hlast : n + 1 < (source.toList.splitOn '\n').length
          · simp only [if_pos hlast, Option.map_some, Text.trim_unended,
              Text.trim_append_blank (c := '\n') (by decide)]
          · simp [hlast, Text.trim_unended]

namespace Source

/-! ## The words of a line with a defect -/

/-- A blank line has no words. -/
theorem exists_not_isBlank_of_written {cs : List Char} (h : written cs ≠ []) :
    ∃ c ∈ cs, Text.isBlank c = false := by
  obtain ⟨w, hw⟩ := List.exists_mem_of_ne_nil _ h
  obtain ⟨piece, hpiece, -⟩ := List.mem_map.1 hw
  obtain ⟨hpiece, hne⟩ := List.mem_filter.1 hpiece
  obtain ⟨c, hc⟩ := List.exists_mem_of_ne_nil piece (by simpa using hne)
  obtain ⟨hblank, hmem⟩ := mem_of_mem_splitOnP hpiece hc
  exact ⟨c, (List.takeWhile_sublist _).mem hmem, hblank⟩

/-- A line without words of its own is blank, or the label alone that is carried to it. -/
theorem statement?_of_written_nil {source : String} {line : Nat} {s : Stmt}
    (hs : statement? source line = some s) (hwritten : writtenLine? source line = some []) :
    s = .blank ∨ s = .label := by
  obtain ⟨n, rfl⟩ := exists_eq_succ_of_statement? hs
  rw [statement?_eq_map, Option.map_eq_some_iff] at hs
  obtain ⟨ws, hws, rfl⟩ := hs
  cases n with
  | zero =>
      rw [getElem?_lines_zero, hwritten] at hws
      obtain rfl := Option.some.inj hws
      exact .inl rfl
  | succ n =>
      obtain ⟨above, habove⟩ : ∃ above, (lines source)[n]? = some above := by
        have hlt := (List.getElem?_eq_some_iff.1 hws).1
        exact ⟨_, List.getElem?_eq_getElem (by omega)⟩
      rw [getElem?_lines_succ habove, hwritten, Option.map_some, List.append_nil] at hws
      obtain rfl := Option.some.inj hws
      rcases handedOn_eq_nil_or above with hnone | ⟨hhanded, hlone⟩
      · exact .inl (by rw [hnone]; rfl)
      · obtain ⟨name, hname, rfl⟩ := isLoneLabel_eq_true_iff.1 hlone
        exact .inr (by rw [hhanded, Stmt.ofWords_loneLabel hname])

/-- A line with a defect has words of its own. -/
theorem exists_written_of_mem_findings {source : String} {f : Finding}
    (hf : f ∈ (assemble source).findings) :
    ∃ n cs, f.line = n + 1 ∧ (Text.lines source)[n]? = some cs ∧ written cs ≠ [] := by
  obtain ⟨s, hs, hnone⟩ : ∃ s, statement? source f.line = some s ∧ ¬ (s = .blank ∨ s = .label) := by
    rcases mem_findings_iff.1 hf with ⟨s, hs, hd⟩ | ⟨-, name, earlier, hredefines, -⟩
    · refine ⟨s, hs, ?_⟩
      rintro (rfl | rfl) <;> exact absurd hd (by simp [Stmt.emit])
    · obtain ⟨s, hs, hd⟩ := Option.bind_eq_some_iff.1 hredefines.defines
      obtain ⟨item, rfl⟩ := Stmt.exists_of_defines? hd
      exact ⟨_, hs, by simp⟩
  obtain ⟨n, hn⟩ := exists_eq_succ_of_statement? hs
  rw [hn] at hs
  have hlt : n < (Text.lines source).length := by
    rw [statement?_eq_map, Option.map_eq_some_iff] at hs
    obtain ⟨_, hline, -⟩ := hs
    rw [← length_lines]
    exact (List.getElem?_eq_some_iff.1 hline).1
  refine ⟨n, _, hn, List.getElem?_eq_getElem hlt, fun hnil => hnone ?_⟩
  refine statement?_of_written_nil hs ?_
  rw [writtenLine?, List.getElem?_map, List.getElem?_eq_getElem hlt, Option.map_some, hnil]

end Source

/-- Every finding is on a line of the text that is not blank, whether the lines end with a line feed
    or with a carriage return and a line feed, and whether the last of them is ended or not. What
    stands there between the blanks at its ends is quoted in the diagnostic of the finding, below
    the message with the number of the line and above the help; and it is what a reader finds under
    that number. -/
theorem render_of_mem_findings {source : String} {f : Finding}
    (hf : f ∈ (assemble source).findings) :
    ∃ cs quoted, 1 ≤ f.line ∧ f.line ≤ (Text.lines source).length ∧
      (Text.lines source)[f.line - 1]? = some cs ∧ Text.TrimsTo cs quoted ∧ quoted ≠ [] ∧
      (Text.shown source)[f.line - 1]?.map Text.trim = some quoted ∧
      f.diagnostic.render source =
        "line " ++ Text.Numeral.text f.line ++ ": " ++ f.defect.message ++ "\n    | " ++
          String.ofList quoted ++ "\n    = help: " ++ f.defect.help := by
  obtain ⟨n, cs, hn, hcs, hwritten⟩ := Source.exists_written_of_mem_findings hf
  obtain ⟨c, hc, hnotBlank⟩ := Source.exists_not_isBlank_of_written hwritten
  have hne : Text.trim cs ≠ [] := by
    intro hnil
    have hall := Text.trim_eq_nil_iff.1 hnil c hc
    exact Bool.false_ne_true (hnotBlank.symm.trans hall)
  have hquote : Diagnostic.quote? source (n + 1) = some (String.ofList (Text.trim cs)) := by
    rw [Diagnostic.quote?, hcs]
    cases cs with
    | nil => exact absurd hc (by simp)
    | cons => rfl
  have hlt := (List.getElem?_eq_some_iff.1 hcs).1
  refine ⟨cs, Text.trim cs, by omega, by omega, ?_, Text.trimsTo_trim cs, hne, ?_, ?_⟩
  · rw [hn, Nat.add_sub_cancel, hcs]
  · rw [Diagnostic.quote?_eq_shown, Option.map_eq_some_iff] at hquote
    obtain ⟨row, hrow, htext⟩ := hquote
    rw [hn, Nat.add_sub_cancel, hrow, Option.map_some, String.ofList_injective htext]
  · simp only [Diagnostic.render, Diagnostic.render.head, Finding.diagnostic, hn, hquote,
      String.append_assoc]

/-- The label is carried over a comment to a line that knows no such mnemonic. -/
theorem render_of_mem_findings_carried :
    ⟨.unknownMnemonic, 3⟩ ∈ (assemble "A:\r\n; c\r\n FOO 5\r\n").findings ∧
      (⟨.unknownMnemonic, 3⟩ : Finding).diagnostic.render "A:\r\n; c\r\n FOO 5\r\n" =
        "line 3: unknown mnemonic\n    | FOO 5\n    = help: valid mnemonics are HLT, INC, DEC, " ++
          "CPA, STO, ADD, SUB, BRA, BRN, MUL, and BRZ" := by
  have hf : ⟨.unknownMnemonic, 3⟩ ∈ (assemble "A:\r\n; c\r\n FOO 5\r\n").findings := by
    decide +kernel
  refine ⟨hf, ?_⟩
  obtain ⟨_, quoted, -, -, -, -, -, hshown, hrender⟩ := render_of_mem_findings hf
  have hquoted : (Text.shown "A:\r\n; c\r\n FOO 5\r\n")[3 - 1]?.map Text.trim =
      some ['F', 'O', 'O', ' ', '5'] := by
    decide +kernel
  rw [hquoted] at hshown
  rw [hrender, ← Option.some.inj hshown]
  decide +kernel

end DecimalMachine
