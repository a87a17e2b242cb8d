import DecimalMachine.Assembly.Settle
import DecimalMachine.Proofs.Assembly.Identifier
import DecimalMachine.Proofs.Source.Line

set_option autoImplicit false

/-! # Lines in normal form

The normal form of a line is the plain text of its words (`Source.normal`). A text can be brought
into normal form in one walk over its raw lines, in which a label alone is not carried as a word but
inserted, as text, in front of the next raw line (`Source.rewriteFrom`). That line is then searched
for its comment and split together with the label. It makes no difference, as a label holds neither
a semicolon nor a blank (`Source.rewriteFrom_eq`), so every line of the result is settled by the
line before it and by the normal form of the raw line. -/

namespace DecimalMachine

namespace Source

/-! ## Normal forms -/

/-- The words of a raw line, without the comment, with single spaces between them. -/
def normal (cs : List Char) : String :=
  plain (written cs)

/-- Raw lines in normal form, with every label alone inserted in front of the raw line after it.
    What is inserted in front of the first of them is given. -/
def rewriteFrom (inserted : List Char) : List (List Char) → List String
  | [] => []
  | cs :: rest =>
      let line := normal (inserted ++ cs)
      line :: rewriteFrom (if (Token.label? line).isSome then line.toList ++ [' '] else []) rest

/-- The lines of a text in normal form. -/
def rewritten (source : String) : List String :=
  rewriteFrom [] (Text.lines source)

/-- The words of a line in normal form, which are split at spaces. -/
def split (line : String) : List String :=
  if line = "" then [] else (line.toList.splitOn ' ').map String.ofList

/-! ## Words and plain texts -/

section Plain

variable {w : String} {ws vs : List String}

theorem plain_inj (hws : ∀ w ∈ ws, IsWord w) (hvs : ∀ w ∈ vs, IsWord w) :
    plain ws = plain vs ↔ ws = vs := by
  refine ⟨fun h => ?_, congrArg plain⟩
  rw [← words_plain hws, h, words_plain hvs]

theorem plain_eq_empty_iff (h : ∀ w ∈ ws, IsWord w) : plain ws = "" ↔ ws = [] := by
  have hnone : ∀ w ∈ ([] : List String), IsWord w := by simp
  exact plain_inj h hnone

theorem plain_singleton (w : String) : plain [w] = w :=
  String.toList_inj.1 (toList_plain_singleton w)

/-- A plain text is a label if and only if it is made of a label and nothing else. -/
theorem isSome_label?_plain (h : ∀ w ∈ ws, IsWord w) :
    (Token.label? (plain ws)).isSome = isLoneLabel ws := by
  match ws with
  | [] => decide +kernel
  | [w] => rw [plain_singleton, isLoneLabel]
  | w :: v :: ws =>
      cases hlabel : Token.label? (plain (w :: v :: ws)) with
      | none => rfl
      | some name =>
          -- the space behind the first word would be part of the label
          obtain ⟨hname, htext⟩ := Token.label?_eq_some_iff.1 hlabel
          have hspace : ' ' ∈ (name ++ ":").toList := by
            rw [← htext, toList_plain_cons]
            simp
          rw [String.toList_append] at hspace
          rcases List.mem_append.1 hspace with hmem | hmem
          · exact absurd (Token.isLabelPart_of_mem hname hmem) (by decide +kernel)
          · exact absurd hmem (by decide)

theorem split_plain (h : ∀ w ∈ ws, IsWord w) : split (plain ws) = ws := by
  by_cases hws : ws = []
  · subst hws
    rfl
  · have hspace : ∀ cs ∈ ws.map String.toList, ' ' ∉ cs := by
      rintro cs hcs hmem
      obtain ⟨w, hw, rfl⟩ := List.mem_map.1 hcs
      exact absurd ((h w hw).2 _ hmem).1 (by decide)
    have hsplit := List.splitOn_intercalate ' ' hspace (by simpa using hws)
    have htext : (plain ws).toList = [' '].intercalate (ws.map String.toList) := by
      rw [plain, String.toList_intercalate]
      rfl
    rw [split, if_neg ((plain_eq_empty_iff h).not.2 hws), htext, hsplit, List.map_map]
    simp

end Plain

/-! ## Inserting and carrying -/

theorem isWord_of_mem_carry {carried : List String} (hcarried : ∀ w ∈ carried, IsWord w)
    {ls : List (List Char)} {line : List String} (h : line ∈ carry carried (ls.map written)) :
    ∀ w ∈ line, IsWord w := by
  induction ls generalizing carried with
  | nil => exact absurd h List.not_mem_nil
  | cons cs rest ih =>
      have hline : ∀ w ∈ carried ++ written cs, IsWord w := by
        intro w hw
        rcases List.mem_append.1 hw with hw | hw
        · exact hcarried w hw
        · exact isWord_of_mem_written hw
      rcases List.mem_cons.1 h with rfl | h
      · exact hline
      · refine ih ?_ h
        split
        · exact hline
        · simp

/-- Raw lines in normal form are the plain texts of the lines, if what is inserted in front of them
    is read as the words that are carried to them. -/
theorem rewriteFrom_eq {inserted : List Char} {carried : List String}
    (h : ∀ cs, written (inserted ++ cs) = carried ++ written cs) (ls : List (List Char)) :
    rewriteFrom inserted ls = (carry carried (ls.map written)).map plain := by
  induction ls generalizing inserted carried with
  | nil => rfl
  | cons cs rest ih =>
      have hline : normal (inserted ++ cs) = plain (carried ++ written cs) := by
        rw [normal, h]
      have hwords : ∀ w ∈ carried ++ written cs, IsWord w := by
        rw [← h]
        exact fun w => isWord_of_mem_written
      have hlabel : (Token.label? (plain (carried ++ written cs))).isSome =
          isLoneLabel (carried ++ written cs) := isSome_label?_plain hwords
      rw [rewriteFrom, hline, hlabel, List.map_cons, carry, List.map_cons]
      congr 1
      refine ih fun next => ?_
      cases hlone : isLoneLabel (carried ++ written cs) with
      | false => rfl
      | true =>
          obtain ⟨name, -, hname⟩ := isLoneLabel_eq_true_iff.1 hlone
          rw [hname] at hwords ⊢
          rw [if_pos rfl, if_pos rfl, toList_plain_singleton, List.append_assoc]
          exact written_append_cons (hwords _ List.mem_cons_self) next

/-- The lines of a text in normal form are the plain texts of its lines. -/
theorem rewritten_eq (source : String) : rewritten source = (lines source).map plain :=
  rewriteFrom_eq (fun _ => rfl) _

/-! ## Line by line -/

theorem plain_cons (w : String) {ws : List String} (h : ∀ v ∈ ws, IsWord v) :
    plain (w :: ws) = if plain ws = "" then w else w ++ " " ++ plain ws := by
  cases ws with
  | nil => rw [if_pos ((plain_eq_empty_iff h).2 rfl), plain_singleton]
  | cons v ws =>
      rw [if_neg ((plain_eq_empty_iff h).not.2 (List.cons_ne_nil v ws)), ← String.toList_inj,
        toList_plain_cons]
      simp

/-- A line in normal form follows from the one before it and from the raw line. -/
theorem getElem?_rewritten_succ {source : String} {n : Nat} {line : List String} {cs : List Char}
    (hline : (lines source)[n]? = some line) (hcs : (Text.lines source)[n + 1]? = some cs) :
    (rewritten source)[n + 1]? = some (plain (handedOn line ++ written cs)) := by
  have hnext := getElem?_carry_succ hline
  rw [List.getElem?_map, hcs] at hnext
  rw [rewritten_eq, List.getElem?_map, lines, hnext]
  rfl

/-- Texts whose lines have the same normal forms have the same lines. -/
theorem lines_congr_normal {source source' : String}
    (h : (Text.lines source').map normal = (Text.lines source).map normal) :
    lines source' = lines source := by
  have hwritten : ∀ ts : List (List Char),
      ((ts.map normal).map fun t => Text.words t.toList) = ts.map written := by
    intro ts
    rw [List.map_map]
    refine List.map_congr_left fun cs _ => ?_
    exact words_plain fun w => isWord_of_mem_written
  rw [lines, lines, ← hwritten, ← hwritten, h]

end Source

/-- A text is brought into normal form line by line. Every line of it gives one, the first its own
    normal form. A line after a label alone has that label in front of its normal form, and is the
    label itself if it is blank; any other line is just its normal form. The statements of the text
    are those of the words of these lines. So two texts whose lines have the same normal forms, one
    by one, have the same statements, and are assembled to the same object file with the same
    defects. -/
theorem assemble_congr_normal (source : String) :
    Source.rewritten source = (Source.lines source).map Source.plain ∧
    Source.statements source =
      (Source.rewritten source).map (fun line => Stmt.ofWords (Source.split line)) ∧
    (Source.rewritten source).length = (Text.lines source).length ∧
    (Source.rewritten source)[0]? = (Text.lines source)[0]?.map Source.normal ∧
    (∀ n out cs, (Source.rewritten source)[n]? = some out →
      (Text.lines source)[n + 1]? = some cs →
      ((∀ name, Token.isIdentifier name = true → out ≠ name ++ ":") →
        (Source.rewritten source)[n + 1]? = some (Source.normal cs)) ∧
      (∀ name, Token.isIdentifier name = true → out = name ++ ":" →
        (Source.rewritten source)[n + 1]? =
          some (if Source.normal cs = "" then out else out ++ " " ++ Source.normal cs))) ∧
    ∀ source', (Text.lines source').map Source.normal = (Text.lines source).map Source.normal →
      Source.statements source' = Source.statements source ∧
        assemble source' = assemble source := by
  have hwords : ∀ line ∈ Source.lines source, ∀ w ∈ line, Source.IsWord w :=
    fun line => Source.isWord_of_mem_carry (by simp)
  refine ⟨Source.rewritten_eq source, ?_, ?_, ?_, ?_, ?_⟩
  · rw [Source.rewritten_eq, List.map_map, Source.statements]
    refine List.map_congr_left fun line hline => ?_
    exact congrArg Stmt.ofWords (Source.split_plain (hwords line hline)).symm
  · rw [Source.rewritten_eq, List.length_map, Source.length_lines]
  · rw [Source.rewritten]
    cases Text.lines source <;> rfl
  · intro n out cs hout hcs
    rw [Source.rewritten_eq, List.getElem?_map] at hout
    obtain ⟨line, hline, rfl⟩ := Option.map_eq_some_iff.1 hout
    rw [Source.getElem?_rewritten_succ hline hcs]
    refine ⟨fun hnot => ?_, ?_⟩
    · have hlone : ¬ Source.isLoneLabel line = true := by
        intro hlone
        obtain ⟨name, hname, rfl⟩ := Source.isLoneLabel_eq_true_iff.1 hlone
        exact hnot name hname (Source.plain_singleton _)
      rw [Source.handedOn, if_neg hlone]
      rfl
    · intro name hname hplain
      have hlone : Source.isLoneLabel line = true := by
        rw [← Source.isSome_label?_plain (hwords line (List.mem_of_getElem? hline)), hplain,
          Token.label?_append_colon hname]
        rfl
      obtain ⟨name, -, rfl⟩ := Source.isLoneLabel_eq_true_iff.1 hlone
      rw [Source.handedOn_of_isLoneLabel hlone, Source.plain_singleton]
      exact congrArg some (Source.plain_cons _ fun w => Source.isWord_of_mem_written)
  · intro source' hnormal
    have hlines := Source.lines_congr_normal hnormal
    have hstatements : Source.statements source' = Source.statements source := by
      rw [Source.statements, Source.statements, hlines]
    refine ⟨hstatements, ?_⟩
    rw [assemble, assemble, Source.program, Source.program, hstatements]

/-- A label is inserted in front of a comment, and once more in front of the instruction behind it.
    Written with other comments and blanks, a carriage return and a no-break space among them, the
    lines say the same. -/
theorem assemble_congr_normal_carried :
    let source := "A: ; there\n; hi\n\tCPA  5\nHLT"
    let source' := "  A:\r\n;\r\nCPA\u00a05 ; load\r\nHLT\r"
    Source.rewritten source = ["A:", "A:", "A: CPA 5", "HLT"] ∧
      (Source.rewritten source)[2]? = some ("A:" ++ " " ++ "CPA 5") ∧
      (Source.rewritten source)[3]? = some "HLT" ∧
      Source.statements source' = Source.statements source ∧
      assemble source' = assemble source := by
  intro source source'
  have hrewritten : Source.rewritten source = ["A:", "A:", "A: CPA 5", "HLT"] := by
    decide +kernel
  obtain ⟨-, -, -, -, hstep, hcongr⟩ := assemble_congr_normal source
  have hlabel := (hstep 1 "A:" "\tCPA  5".toList (by rw [hrewritten]; rfl) (by decide +kernel)).2
    "A" (by decide +kernel) rfl
  have hother := (hstep 2 "A: CPA 5" "HLT".toList (by rw [hrewritten]; rfl) (by decide +kernel)).1
  have hnot : ∀ name, Token.isIdentifier name = true → "A: CPA 5" ≠ name ++ ":" := by
    intro name hname heq
    have hlabel : Token.label? "A: CPA 5" = none := by decide +kernel
    rw [heq, Token.label?_append_colon hname] at hlabel
    exact absurd hlabel (by simp)
  obtain ⟨hstatements, hassemble⟩ := hcongr source' (by decide +kernel)
  exact ⟨hrewritten, hlabel.trans (by decide +kernel), (hother hnot).trans (by decide +kernel),
    hstatements, hassemble⟩

end DecimalMachine
