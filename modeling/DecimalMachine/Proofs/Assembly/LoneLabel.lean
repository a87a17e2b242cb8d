import DecimalMachine.Proofs.Assembly.Findings
import DecimalMachine.Proofs.Assembly.Identifier
import DecimalMachine.Proofs.Source.Line

set_option autoImplicit false

/-! # Labels on lines of their own

A label alone on its line is carried to the front of the next one, and after that its own line has
only one effect: the line map has an entry for it. So nothing but that entry changes if the line is
blanked, in one pass (`Pass.run_blanked`) and hence in all of them (`Pass.settled_blanked`). A text
with a label on a line of its own therefore assembles like the text that has the label in front of
the next line. This holds of labels that are identifiers: no other word is carried. -/

namespace DecimalMachine

/-! ## Blanking labels -/

/-- A statement, but nothing instead of a label alone. -/
def Stmt.blanked : Stmt → Stmt
  | label => blank
  | s => s

/-- A line with nothing on it instead of a label alone. -/
def Line.blanked (line : Line) : Line :=
  { line with stmt := line.stmt.blanked }

/-- An entry of which a label alone leaves nothing. -/
def Entry.blanked (e : Entry) : Entry :=
  { e with line := e.line.blanked, site? := if e.line.stmt = .label then none else e.site? }

/-- A pass in which every label alone is blanked. -/
def Pass.blanked (p : Pass) : Pass :=
  ⟨p.entries.map Entry.blanked, p.layout⟩

/-- A blanked line is passed like the line itself. -/
theorem Layout.step_blanked (before : Lookup) (lay : Layout) (line : Line) :
    lay.step before line.blanked =
      ((lay.step before line).1.blanked, (lay.step before line).2) := by
  obtain ⟨number, stmt, wide⟩ := line
  cases stmt with
  | put place item => rfl
  | _ => rfl

namespace Pass

theorem runFrom_blanked (before : Lookup) (lay : Layout) (lines : List Line) :
    runFrom before lay (lines.map Line.blanked) = (runFrom before lay lines).blanked := by
  induction lines generalizing lay with
  | nil => rfl
  | cons line rest ih =>
      simp only [List.map_cons, runFrom, Layout.step_blanked, ih]
      rfl

theorem lines_blanked (p : Pass) : p.blanked.lines = p.lines.map Line.blanked := by
  simp only [lines, blanked, List.map_map]
  rfl

theorem again_blanked (p : Pass) : p.blanked.again = p.again.blanked := by
  rw [again, lines_blanked]
  exact runFrom_blanked _ _ _

theorem settle_blanked (before : List (String × Nat)) (n : Nat) (p : Pass) :
    settle before n p.blanked = (settle before n p).blanked := by
  induction n generalizing before p with
  | zero => rfl
  | succ n ih =>
      have haddresses : p.blanked.symbols.addresses = p.symbols.addresses := rfl
      simp only [settle, haddresses]
      split
      · rfl
      · rw [again_blanked, ih]

theorem settled_blanked (program : List Line) :
    settled (program.map Line.blanked) = (settled program).blanked := by
  have hlimit : limit (program.map Line.blanked) = limit program := by
    have hinstr : ∀ line : Line, line.blanked.stmt.isInstr = line.stmt.isInstr := by
      intro line
      rw [Line.blanked]
      cases line.stmt <;> rfl
    simp [limit, List.countP_map, Function.comp_def, hinstr]
  rw [settled, hlimit, first, run, runFrom_blanked]
  exact settle_blanked _ _ _

/-- What is assembled does not tell a label alone from a blank line, but for the line map. -/
theorem object_blanked (p : Pass) :
    p.blanked.object.writes = p.object.writes ∧ p.blanked.object.start = p.object.start ∧
      p.blanked.object.symbols.labels = p.object.symbols.labels ∧
      p.blanked.findings = p.findings := by
  refine ⟨?_, rfl, rfl, ?_⟩
  · simp only [object, blanked, List.flatMap_map]
    rfl
  · simp only [findings, blanked, List.flatMap_map]
    rfl

end Pass

/-! ## Source texts -/

theorem Source.map_blanked_program (source : String) :
    (program source).map Line.blanked =
      (((statements source).map Stmt.blanked).zipIdx 1).map fun (s, n) =>
        { number := n, stmt := s } := by
  rw [program, List.zipIdx_map, List.map_map, List.map_map]
  rfl

/-- Texts that say the same once labels alone are blanked are assembled alike, but for the line
    map. -/
theorem assemble_congr_blanked {source source' : String}
    (h : (Source.statements source').map Stmt.blanked =
      (Source.statements source).map Stmt.blanked) :
    (assemble source').object.writes = (assemble source).object.writes ∧
      (assemble source').object.start = (assemble source).object.start ∧
      (assemble source').object.symbols.labels = (assemble source).object.symbols.labels ∧
      (assemble source').findings = (assemble source).findings := by
  have hprogram : (Source.program source').map Line.blanked =
      (Source.program source).map Line.blanked := by
    rw [Source.map_blanked_program, Source.map_blanked_program, h]
  have hsettled := congrArg Pass.settled hprogram
  rw [Pass.settled_blanked, Pass.settled_blanked] at hsettled
  simp only [assemble]
  generalize Pass.settled (Source.program source) = p at hsettled ⊢
  generalize Pass.settled (Source.program source') = p' at hsettled ⊢
  obtain ⟨hwrites, hstart, hlabels, hfindings⟩ := p.object_blanked
  obtain ⟨hwrites', hstart', hlabels', hfindings'⟩ := p'.object_blanked
  rw [hsettled] at hwrites' hstart' hlabels' hfindings'
  exact ⟨hwrites'.symm.trans hwrites, hstart'.symm.trans hstart, hlabels'.symm.trans hlabels,
    hfindings'.symm.trans hfindings⟩

namespace Stmt

variable {name : String}

/-- A label alone is a statement of its own. -/
theorem ofWords_loneLabel (h : Token.isIdentifier name = true) :
    ofWords [name ++ ":"] = .label := by
  simp [ofWords, ofOne, int?_append_colon h, uncolon?_append_colon]

/-- In front of other words a label is defined, unless there are too many of them. -/
theorem defines?_ofWords_label (h : Token.isIdentifier name = true) {ws : List String}
    (hne : ws ≠ []) :
    (ofWords ((name ++ ":") :: ws)).defines? = some name ∨
      ∃ count, ofWords ((name ++ ":") :: ws) = .overlong count := by
  have hcolon := uncolon?_append_colon name
  have hdot := undot?_append_colon h
  match ws, hne with
  | [second], _ => exact .inl (by simp [ofWords, ofTwo, hcolon, hdot, defines?])
  | [mnemonic, operand], _ => exact .inl (by simp [ofWords, ofThree, hcolon, defines?])
  | _ :: _ :: _ :: _, _ => exact .inr ⟨_, rfl⟩

end Stmt

theorem Source.statements_loneLabel {source source' name : String} {before after : List (List Char)}
    {x y : List Char} (hlines : Text.lines source = before ++ x :: y :: after)
    (hlines' : Text.lines source' =
      before ++ [] :: ((name ++ ":").toList ++ ' ' :: y) :: after)
    (hname : Token.isIdentifier name = true) (hx : written x = [name ++ ":"])
    (hfirst : (lines source)[before.length]? = some (written x)) (hy : written y ≠ []) :
    ∃ before' after', before'.length = before.length ∧
      statements source =
        before' ++ .label :: Stmt.ofWords ((name ++ ":") :: written y) :: after' ∧
      statements source' =
        before' ++ .blank :: Stmt.ofWords ((name ++ ":") :: written y) :: after' := by
  have hword : IsWord (name ++ ":") := isWord_of_mem_written (hx ▸ List.mem_cons_self)
  have hwords : lines source = carry [] (before.map written ++
      [name ++ ":"] :: written y :: after.map written) := by
    rw [lines, hlines, List.map_append, List.map_cons, hx]
    rfl
  have hwords' : lines source' = carry [] (before.map written ++
      [] :: ((name ++ ":") :: written y) :: after.map written) := by
    rw [lines, hlines', List.map_append, List.map_cons, List.map_cons, written_append_cons hword]
    rfl
  have hlone : isLoneLabel [name ++ ":"] = true := isLoneLabel_of_isIdentifier hname
  rw [hwords, hx, ← before.length_map written] at hfirst
  obtain ⟨before', after', hlength, hcarry, hcarry'⟩ := carry_loneLabel hfirst hlone hy
  refine ⟨before'.map Stmt.ofWords, after'.map Stmt.ofWords, by simp [hlength], ?_, ?_⟩
  · rw [statements, hwords, hcarry, List.map_append, List.map_cons, List.map_cons,
      Stmt.ofWords_loneLabel hname]
  · rw [statements, hwords', hcarry', List.map_append, List.map_cons, List.map_cons]
    rfl

/-- A label on a line of its own is the same as that label in front of the next line, if that is not
    blank and nothing is carried to the label: the labels, what is written, the start and the
    findings are the same. So the label is not lost: it is defined, unless the next line is found to
    hold too many words with it. -/
theorem assemble_loneLabel {source source' name : String} {before after : List (List Char)}
    {x y : List Char} (hlines : Text.lines source = before ++ x :: y :: after)
    (hlines' : Text.lines source' =
      before ++ [] :: ((name ++ ":").toList ++ ' ' :: y) :: after)
    (hname : Token.isIdentifier name = true) (hx : Source.written x = [name ++ ":"])
    (hfirst : (Source.lines source)[before.length]? = some (Source.written x))
    (hy : Source.written y ≠ []) :
    (assemble source').object.symbols.labels = (assemble source).object.symbols.labels ∧
      (assemble source').object.writes = (assemble source).object.writes ∧
      (assemble source').object.start = (assemble source).object.start ∧
      (assemble source').findings = (assemble source).findings ∧
      (((assemble source).object.symbols.address? name).isSome ∨
        ⟨.unexpectedWord, before.length + 2⟩ ∈ (assemble source).findings) := by
  obtain ⟨before', after', hlength, hstmts, hstmts'⟩ :=
    Source.statements_loneLabel hlines hlines' hname hx hfirst hy
  have hblanked : (Source.statements source').map Stmt.blanked =
      (Source.statements source).map Stmt.blanked := by
    simp [hstmts, hstmts', Stmt.blanked]
  obtain ⟨hwrites, hstart, hlabels, hfindings⟩ := assemble_congr_blanked hblanked
  refine ⟨hlabels, hwrites, hstart, hfindings, ?_⟩
  have hs : Source.statement? source (before.length + 2) =
      some (Stmt.ofWords ((name ++ ":") :: Source.written y)) := by
    rw [Source.statement?, hstmts, List.getElem?_append_right (by omega)]
    simp [hlength]
  rcases Stmt.defines?_ofWords_label hname hy with hdefines | ⟨count, hcount⟩
  · refine .inl ?_
    refine (Source.isSome_address?_settled source name).trans ?_
    simp [hstmts, hdefines]
  · refine .inr (Source.mem_findings_iff.2 (.inl ⟨_, hs, ?_⟩))
    rw [hcount]
    exact List.mem_singleton_self _

/-- The label of the loop is used on the last line, which jumps back to the cell of the second. -/
theorem assemble_loneLabel_loop :
    (assemble "\nLOOP: ADD $1 ; count\nBRA LOOP").object.writes =
        (assemble "LOOP:\nADD $1 ; count\nBRA LOOP").object.writes ∧
      (assemble "LOOP:\nADD $1 ; count\nBRA LOOP").object.symbols.address? "LOOP" = some 0 := by
  have hlines : Text.lines "LOOP:\nADD $1 ; count\nBRA LOOP" =
      [] ++ "LOOP:".toList :: "ADD $1 ; count".toList :: ["BRA LOOP".toList] := by
    decide +kernel
  have hlines' : Text.lines "\nLOOP: ADD $1 ; count\nBRA LOOP" =
      [] ++ [] :: (("LOOP" ++ ":").toList ++ ' ' :: "ADD $1 ; count".toList) ::
        ["BRA LOOP".toList] := by
    decide +kernel
  obtain ⟨-, hwrites, -⟩ := assemble_loneLabel hlines hlines' (by decide +kernel)
    (by decide +kernel) (by decide +kernel) (by decide +kernel)
  exact ⟨hwrites, by decide +kernel⟩

/-- A word that ends in a colon and is no identifier is no label on a line of its own, although it
    is taken for one in front of other words. -/
theorem assemble_loneLabel_not_identifier :
    Text.lines "1A:\nHLT" = [] ++ "1A:".toList :: "HLT".toList :: [] ∧
      Text.lines "\n1A: HLT" =
        [] ++ [] :: (("1A" ++ ":").toList ++ ' ' :: "HLT".toList) :: [] ∧
      Source.written "1A:".toList = ["1A" ++ ":"] ∧
      (Source.lines "1A:\nHLT")[0]? = some (Source.written "1A:".toList) ∧
      Source.written "HLT".toList ≠ [] ∧
      (assemble "\n1A: HLT").object.symbols.address? "1A" ≠
        (assemble "1A:\nHLT").object.symbols.address? "1A" ∧
      (assemble "1A:\nHLT").object.symbols.address? "1A" = none ∧
      (assemble "1A:\nHLT").findings = [] := by
  decide +kernel

end DecimalMachine
