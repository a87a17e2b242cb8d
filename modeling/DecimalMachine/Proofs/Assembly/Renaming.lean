import DecimalMachine.Proofs.Assembly.Coherence
import DecimalMachine.Proofs.Source.Renaming

set_option autoImplicit false

/-! # Assembly of a renamed text

What is assembled does not depend on how labels are spelled. Two tables of labels correspond under
a renaming if a new name has in the one what the old name has in the other, and nothing else is in
either (`Renaming.Follows`). An operand then names the same in both (`Renaming.resolve?_operand`),
as no new name catches a word that was no label; so a line is passed alike (`Layout.step_rename`),
and passes settle after the same number of rounds, as labels have moved in the one text if and only
if they have in the other (`Renaming.Follows.eq_iff`). The order of the names plays no part: the
listed addresses are compared only with each other. -/

namespace DecimalMachine

/-! ## Tables that correspond -/

namespace Renaming

variable {ρ : Renaming} {β γ : Type}

/-- One table has for the new names what the other one has for the old names, and no more. -/
structure Follows (ρ : Renaming) (f f' : String → Option β) : Prop where
  name : ∀ x, ρ.renames x = true → f' (ρ.name x) = f x
  old : ∀ x, ρ.renames x = false → f x = none
  new : ∀ y, (∀ x, ρ.renames x = true → ρ.name x ≠ y) → f' y = none

namespace Follows

variable {f f' g g' : String → Option β}

protected theorem empty : ρ.Follows (fun _ => (none : Option β)) fun _ => none :=
  ⟨fun _ _ => rfl, fun _ _ => rfl, fun _ _ => rfl⟩

protected theorem or (hf : ρ.Follows f f') (hg : ρ.Follows g g') :
    ρ.Follows (fun x => (f x).or (g x)) fun y => (f' y).or (g' y) := by
  refine ⟨fun x hx => ?_, fun x hx => ?_, fun y hy => ?_⟩
  · rw [hf.name x hx, hg.name x hx]
  · rw [hf.old x hx, hg.old x hx, Option.or_none]
  · rw [hf.new y hy, hg.new y hy, Option.or_none]

protected theorem map (hf : ρ.Follows f f') (φ : β → γ) :
    ρ.Follows (fun x => (f x).map φ) fun y => (f' y).map φ := by
  refine ⟨fun x hx => ?_, fun x hx => ?_, fun y hy => ?_⟩
  · rw [hf.name x hx]
  · rw [hf.old x hx, Option.map_none]
  · rw [hf.new y hy, Option.map_none]

/-- What the new table has is what the old one has under the old name. -/
theorem eq_some_iff (hf : ρ.Follows f f') {y : String} {b : β} :
    f' y = some b ↔ ∃ x, ρ.renames x = true ∧ ρ.name x = y ∧ f x = some b := by
  constructor
  · intro h
    obtain ⟨x, hx, rfl⟩ : ∃ x, ρ.renames x = true ∧ ρ.name x = y := by
      refine Classical.byContradiction fun hnone => ?_
      rw [hf.new y fun x hx hy => hnone ⟨x, hx, hy⟩] at h
      exact absurd h (by simp)
    exact ⟨x, hx, rfl, (hf.name x hx).symm.trans h⟩
  · rintro ⟨x, hx, rfl, h⟩
    exact (hf.name x hx).trans h

/-- Tables are equal if and only if those that follow them are. -/
theorem eq_iff (hf : ρ.Follows f f') (hg : ρ.Follows g g') : f = g ↔ f' = g' := by
  constructor
  · rintro rfl
    refine funext fun y => Option.ext fun b => ?_
    rw [hf.eq_some_iff, hg.eq_some_iff]
  · rintro rfl
    funext x
    cases hx : ρ.renames x with
    | true => rw [← hf.name x hx, ← hg.name x hx]
    | false => rw [hf.old x hx, hg.old x hx]

/-- Tables still correspond with one more label, under its old and its new name. -/
protected theorem insert {t t' : Std.TreeMap String β} (h : ρ.Follows (t[·]?) (t'[·]?))
    {x : String} (hx : ρ.renames x = true) (b : β) :
    ρ.Follows ((t.insert x b)[·]?) ((t'.insert (ρ.name x) b)[·]?) := by
  simp only [Std.TreeMap.getElem?_insert, Std.LawfulEqCmp.compare_eq_iff_eq]
  refine ⟨fun z hz => ?_, fun z hz => ?_, fun y hy => ?_⟩
  · by_cases hxz : x = z
    · simp [hxz]
    · rw [if_neg hxz, if_neg fun hname => hxz (ρ.name_injective x z hx hz hname), h.name z hz]
  · have hne : x ≠ z := by
      rintro rfl
      exact Bool.false_ne_true (hz.symm.trans hx)
    rw [if_neg hne, h.old z hz]
  · rw [if_neg (hy x hx), h.new y hy]

end Follows

/-! ## Operands -/

/-- An operand that names a label is written in one of the three modes, and one that names none is
    spelled like no new name. -/
structure Suits (ρ : Renaming) (word : String) : Prop where
  mark : ρ.renames (Operand.bare word) = true → ∃ mode, word = Mode.mark mode (Operand.bare word)
  fresh : ρ.renames (Operand.bare word) = false →
    ∀ x, ρ.renames x = true → ρ.name x ≠ Operand.bare word

/-- No mark of a mode is part of an identifier. -/
theorem unmarked_of_isIdentifier {x : String} (h : Token.isIdentifier x = true) :
    ∀ c ∈ x.toList, c ≠ '$' ∧ c ≠ '[' ∧ c ≠ ']' := by
  have hplain := Token.isPlain_of_isIdentifier h
  refine fun c hc => ⟨?_, ?_, ?_⟩
  · rintro rfl
    exact hplain.dollar hc
  · rintro rfl
    exact hplain.opening hc
  · rintro rfl
    exact hplain.closing hc

theorem bare_of_isIdentifier {x : String} (h : Token.isIdentifier x = true) :
    Operand.bare x = x :=
  Operand.bare_mark_of_unmarked (unmarked_of_isIdentifier h) .direct

/-- No word with marks is an identifier. -/
theorem not_isIdentifier_mark {mode : Mode} (h : mode ≠ .direct) (x : String) :
    ¬ Token.isIdentifier (mode.mark x) = true := by
  intro hmark
  have hplain := Token.isPlain_of_isIdentifier hmark
  cases mode with
  | immediate => exact hplain.dollar (by simp [Mode.mark])
  | indirect => exact hplain.opening (by simp [Mode.mark])
  | direct => exact h rfl

variable {known known' : Lookup} {word : String}

theorem writtenMode_operand (word : String) :
    Operand.writtenMode (ρ.operand word) = Operand.writtenMode word := by
  unfold operand
  split
  · rename_i hx
    exact Operand.writtenMode_mark_of_unmarked
      (unmarked_of_isIdentifier (ρ.isIdentifier_name _ hx)) _
  · rfl

/-- As it stands a word is a label in both tables or in neither. -/
theorem apply_mark (h : ρ.Follows known known') {x : String} (hx : ρ.renames x = true)
    (mode : Mode) : known' (mode.mark (ρ.name x)) = known (mode.mark x) := by
  by_cases hmode : mode = .direct
  · subst hmode
    exact h.name x hx
  · rw [h.new, h.old]
    · exact Bool.eq_false_iff.2 fun hy =>
        not_isIdentifier_mark hmode x (ρ.isIdentifier_of_renames _ hy)
    · intro y hy heq
      exact not_isIdentifier_mark hmode (ρ.name x) (heq ▸ ρ.isIdentifier_name y hy)

/-- A renamed operand names what the operand names. -/
theorem resolve?_operand (h : ρ.Follows known known') (hword : ρ.Suits word) :
    Operand.resolve? known' (ρ.operand word) = Operand.resolve? known word := by
  have hmode := writtenMode_operand (ρ := ρ) word
  suffices hsame : known' (ρ.operand word) = known word ∧
      Operand.value? known' (ρ.operand word) = Operand.value? known word by
    rw [Operand.resolve?, Operand.resolve?, hsame.1, hsame.2, hmode]
  cases hbare : ρ.renames (Operand.bare word) with
  | true =>
      obtain ⟨mode, x, hx, rfl⟩ : ∃ mode x, ρ.renames x = true ∧ word = Mode.mark mode x := by
        obtain ⟨mode, hmark⟩ := hword.mark hbare
        exact ⟨mode, _, hbare, hmark⟩
      have hunmarked := unmarked_of_isIdentifier (ρ.isIdentifier_of_renames x hx)
      have hunmarked' := unmarked_of_isIdentifier (ρ.isIdentifier_name x hx)
      have hoperand : ρ.operand (mode.mark x) = mode.mark (ρ.name x) := by
        rw [operand, Operand.bare_mark_of_unmarked hunmarked,
          Operand.writtenMode_mark_of_unmarked hunmarked, if_pos hx]
      rw [hoperand, apply_mark h hx, Operand.value?, Operand.value?,
        Operand.bare_mark_of_unmarked hunmarked, Operand.bare_mark_of_unmarked hunmarked',
        h.name x hx, Token.int?_of_isIdentifier (ρ.isIdentifier_of_renames x hx),
        Token.int?_of_isIdentifier (ρ.isIdentifier_name x hx)]
      exact ⟨rfl, rfl⟩
  | false =>
      have hoperand : ρ.operand word = word := if_neg (by simp [hbare])
      -- a word that is an identifier is bare, so neither table has it
      have hold : ρ.renames word = false := Bool.eq_false_iff.2 fun hy => by
        rw [bare_of_isIdentifier (ρ.isIdentifier_of_renames _ hy), hy] at hbare
        exact Bool.noConfusion hbare
      have hnew : ∀ x, ρ.renames x = true → ρ.name x ≠ word := by
        rintro x hy rfl
        exact hword.fresh hbare x hy (bare_of_isIdentifier (ρ.isIdentifier_name x hy)).symm
      rw [hoperand, h.old word hold, h.new word hnew, Operand.value?, Operand.value?,
        h.old _ hbare, h.new _ (hword.fresh hbare)]
      exact ⟨rfl, rfl⟩

end Renaming

/-! ## Statements -/

namespace Stmt

variable {ρ : Renaming} {s : Stmt}

/-- The operand of a statement, if it is an instruction with one. -/
def operand? : Stmt → Option String
  | put _ (.instr _ w) => some w
  | _ => none

/-- The labels of a statement are renamed, and its operand suits the renaming. -/
structure Suits (ρ : Renaming) (s : Stmt) : Prop where
  defines : ∀ x, s.defines? = some x → ρ.renames x = true
  operand : ∀ w, s.operand? = some w → ρ.Suits w

theorem defines?_rename (h : s.Suits ρ) : (s.rename ρ).defines? = s.defines?.map ρ.name := by
  rcases s with _ | _ | _ | ⟨_ | ⟨x⟩ | _, _⟩ | _
  case put.some.label =>
    exact congrArg some (Renaming.apply_of_renames (h.defines x rfl))
  all_goals rfl

theorem site?_rename (cur : Cursors) : (s.rename ρ).site? cur = s.site? cur := by
  rcases s with _ | _ | _ | ⟨_ | _ | _, _ | _ | _⟩ | _ <;> rfl

theorem isMapped_rename : (s.rename ρ).isMapped = s.isMapped := by
  rcases s with _ | _ | _ | ⟨_ | _ | _, _ | _ | _⟩ | _ <;> rfl

theorem isInstr_rename : (s.rename ρ).isInstr = s.isInstr := by
  rcases s with _ | _ | _ | ⟨_, _ | _ | _⟩ | _ <;> rfl

theorem after_rename (cur : Cursors) (count : Nat) :
    cur.after (s.rename ρ) count = cur.after s count := by
  cases s with
  | put place item =>
      have hsite := site?_rename (ρ := ρ) (s := put place item) cur
      simp only [rename] at hsite
      simp only [rename, Cursors.after, hsite]
      cases (put place item).site? cur with
      | none => rfl
      | some a => cases item <;> rfl
  | _ => rfl

/-- A renamed statement emits what the statement emits. -/
theorem emit_rename {known known' : Lookup} (h : ρ.Follows known known') (hs : s.Suits ρ)
    (wide : Bool) : (s.rename ρ).emit known' wide = s.emit known wide := by
  rcases s with _ | _ | _ | ⟨place, item⟩ | _
  case put =>
    have hplace : isMisplaced (place.map (·.rename ρ)) = isMisplaced place := by
      rcases place with _ | _ | _ <;> rfl
    simp only [rename, emit, hplace]
    cases item with
    | value v => rfl
    | word w => rcases place with _ | _ | _ <;> rfl
    | instr mnemonic w =>
        have hword : ρ.Suits w := hs.operand w rfl
        simp only [Item.rename, emitItem, emitInstr, Renaming.resolve?_operand h hword,
          Operand.standIn, Renaming.writtenMode_operand]
  all_goals rfl

end Stmt

/-! ## Passes -/

/-- A line with its labels renamed. -/
def Line.rename (ρ : Renaming) (line : Line) : Line :=
  { line with stmt := line.stmt.rename ρ }

/-- An entry with the labels of its line renamed. -/
def Entry.rename (ρ : Renaming) (e : Entry) : Entry :=
  { e with line := e.line.rename ρ }

/-- A layout has the labels of another one under their new names. -/
structure Layout.Renames (ρ : Renaming) (lay lay' : Layout) : Prop where
  cursors : lay'.cursors = lay.cursors
  labels : ρ.Follows (lay.labels[·]?) (lay'.labels[·]?)

namespace Layout

variable {ρ : Renaming} {before before' : Lookup} {lay lay' : Layout} {line : Line}

theorem Renames.address? (h : lay.Renames ρ lay') : ρ.Follows lay.address? lay'.address? :=
  h.labels.map (·.address)

theorem Renames.known (h : lay.Renames ρ lay') (hbefore : ρ.Follows before before') :
    ρ.Follows (lay.known before) (lay'.known before') :=
  h.address?.or hbefore

theorem Renames.bind (h : lay.Renames ρ lay') (hline : line.stmt.Suits ρ) :
    (lay.bind line).Renames ρ (lay'.bind (line.rename ρ)) := by
  simp only [Layout.bind, Line.rename, Stmt.defines?_rename hline, Stmt.site?_rename, h.cursors]
  cases hdefines : line.stmt.defines? with
  | none => exact h
  | some x =>
      cases line.stmt.site? lay.cursors with
      | none => exact h
      | some a => exact ⟨rfl, h.labels.insert (hline.defines x hdefines) _⟩

theorem Renames.clash (h : lay.Renames ρ lay') (hline : line.stmt.Suits ρ) :
    lay'.clash (line.rename ρ) = lay.clash line := by
  simp only [Layout.clash, Line.rename, Stmt.defines?_rename hline, Stmt.site?_rename, h.cursors]
  cases hdefines : line.stmt.defines? with
  | none => rfl
  | some x =>
      cases line.stmt.site? lay.cursors with
      | none => rfl
      | some a =>
          have hx : lay'.labels[ρ.name x]? = lay.labels[x]? :=
            h.labels.name x (hline.defines x hdefines)
          simp only [Option.map_some, hx]

/-- A renamed line is passed like the line itself. -/
theorem step_rename (hbefore : ρ.Follows before before') (h : lay.Renames ρ lay')
    (hline : line.stmt.Suits ρ) :
    (lay'.step before' (line.rename ρ)).1 = (lay.step before line).1.rename ρ ∧
      (lay.step before line).2.Renames ρ (lay'.step before' (line.rename ρ)).2 := by
  have hemission : lay'.emission before' (line.rename ρ) = lay.emission before line :=
    Stmt.emit_rename ((h.bind hline).known hbefore) hline line.wide
  constructor
  · rw [step_fst, step_fst, hemission, h.clash hline, h.cursors]
    simp only [Line.rename, Stmt.site?_rename]
    rfl
  · refine ⟨?_, (h.bind hline).labels⟩
    have hcount : ((lay'.emission before' (line.rename ρ)).cells).length =
        ((lay.emission before line).cells).length := by
      rw [hemission]
    change lay'.cursors.after (line.stmt.rename ρ)
        (lay'.emission before' (line.rename ρ)).cells.length =
      lay.cursors.after line.stmt (lay.emission before line).cells.length
    rw [hcount, h.cursors, Stmt.after_rename]

end Layout

/-- A pass has gone over the renamed lines of another one, and found the same of them. -/
structure Pass.Renames (ρ : Renaming) (p p' : Pass) : Prop where
  entries : p'.entries = p.entries.map (·.rename ρ)
  layout : p.layout.Renames ρ p'.layout

namespace Pass

variable {ρ : Renaming} {p p' : Pass} {before before' : Lookup}

theorem runFrom_rename (hbefore : ρ.Follows before before') {lay lay' : Layout}
    (h : lay.Renames ρ lay') {lines : List Line} (hlines : ∀ line ∈ lines, line.stmt.Suits ρ) :
    (runFrom before lay lines).Renames ρ (runFrom before' lay' (lines.map (·.rename ρ))) := by
  induction lines generalizing lay lay' with
  | nil => exact ⟨rfl, h⟩
  | cons line rest ih =>
      obtain ⟨hentry, hlay⟩ := Layout.step_rename hbefore h (hlines line List.mem_cons_self)
      obtain ⟨hrest, hlast⟩ := ih hlay fun l hl => hlines l (List.mem_cons_of_mem _ hl)
      refine ⟨?_, hlast⟩
      simp only [List.map_cons, runFrom, hentry, hrest]

theorem run_rename (hbefore : ρ.Follows before before') {lines : List Line}
    (hlines : ∀ line ∈ lines, line.stmt.Suits ρ) :
    (run before lines).Renames ρ (run before' (lines.map (·.rename ρ))) := by
  refine runFrom_rename hbefore ⟨rfl, ?_⟩ hlines
  simpa using Renaming.Follows.empty

theorem Renames.address? (h : p.Renames ρ p') :
    ρ.Follows p.symbols.address? p'.symbols.address? :=
  h.layout.address?

theorem Renames.again (h : p.Renames ρ p') (hlines : ∀ line ∈ p.lines, line.stmt.Suits ρ) :
    p.again.Renames ρ p'.again := by
  have hlines' : p'.lines = p.lines.map (·.rename ρ) := by
    rw [lines, lines, h.entries, List.map_map, List.map_map]
    rfl
  rw [Pass.again, Pass.again, hlines']
  exact run_rename h.address? hlines

/-- The lines that a pass has left are as suitable as those it has gone over. -/
theorem suits_run (before : Lookup) {lines : List Line} (h : ∀ line ∈ lines, line.stmt.Suits ρ) :
    ∀ line ∈ (run before lines).lines, line.stmt.Suits ρ := by
  intro line hline
  have hstmts : (run before lines).lines.map (·.stmt) = lines.map (·.stmt) :=
    map_lines_runFrom _ _ (fun _ s => s) _
  obtain ⟨line', hline', heq⟩ := List.mem_map.1 (hstmts ▸ List.mem_map_of_mem hline)
  exact heq ▸ h line' hline'

/-- Labels have moved in a renamed pass if and only if they have in the pass itself, so both settle
    after the same number of passes. -/
theorem Renames.settle (h : p.Renames ρ p') (hlines : ∀ line ∈ p.lines, line.stmt.Suits ρ)
    {s s' : Symbols} (hs : ρ.Follows s.address? s'.address?) (n : Nat) :
    (settle s.addresses n p).Renames ρ (settle s'.addresses n p') := by
  induction n generalizing p p' s s' with
  | zero => exact h
  | succ n ih =>
      have hmoved : p'.symbols.addresses = s'.addresses ↔ p.symbols.addresses = s.addresses := by
        rw [Symbols.addresses_eq_iff, Symbols.addresses_eq_iff, h.address?.eq_iff hs]
      simp only [Pass.settle, hmoved]
      split
      · exact h
      · exact ih (h.again hlines) (suits_run _ hlines) h.address?

theorem settled_rename {program : List Line} (h : ∀ line ∈ program, line.stmt.Suits ρ) :
    (settled program).Renames ρ (settled (program.map (·.rename ρ))) := by
  have hlimit : limit (program.map (·.rename ρ)) = limit program := by
    simp [limit, List.countP_map, Function.comp_def, Line.rename, Stmt.isInstr_rename]
  have hnone : Symbols.empty.address? = fun _ => none := by
    funext x
    simp [Symbols.address?, Symbols.empty]
  have hempty : ρ.Follows Symbols.empty.address? Symbols.empty.address? := hnone ▸ .empty
  rw [settled, settled, hlimit]
  exact (run_rename .empty h).settle (suits_run _ h) hempty _

/-- A renamed pass writes the same, and finds the same lines and defects. -/
theorem Renames.object (h : p.Renames ρ p') :
    p'.object.writes = p.object.writes ∧ p'.object.start = p.object.start ∧
      p'.object.symbols.lines = p.object.symbols.lines ∧ p'.findings = p.findings := by
  have hmapping : ∀ e : Entry, (e.rename ρ).mapping? = e.mapping? := by
    intro e
    simp only [Entry.mapping?, Entry.rename, Line.rename, Stmt.isMapped_rename]
  refine ⟨?_, congrArg Cursors.start h.layout.cursors, ?_, ?_⟩
  · simp only [Pass.object, h.entries, List.flatMap_map]
    rfl
  · simp only [Pass.object, lines_symbols, h.entries, List.filterMap_map]
    exact congrArg (List.filterMap · p.entries) (funext hmapping)
  · simp only [findings, h.entries, List.flatMap_map]
    rfl

end Pass

/-! ## Source texts -/

namespace Source

/-- A word is the operand of an instruction in a text. -/
def IsOperand (source word : String) : Prop :=
  ∃ s ∈ statements source, s.operand? = some word

theorem program_of_renames {ρ : Renaming} {source source' : String}
    (h : Renames ρ source source') : program source' = (program source).map (·.rename ρ) := by
  rw [program, program, statements_of_renames ρ h, List.zipIdx_map, List.map_map, List.map_map]
  rfl

theorem suits_program {ρ : Renaming} {source : String}
    (hlabels : ∀ x, ρ.renames x = true ↔ ∃ line, defines? source line = some x)
    (hwritten : ∀ word, IsOperand source word → ρ.renames (Operand.bare word) = true →
      ∃ mode, word = Mode.mark mode (Operand.bare word))
    (hfresh : ∀ word, IsOperand source word → ρ.renames (Operand.bare word) = false →
      ∀ x, ρ.renames x = true → ρ.name x ≠ Operand.bare word) :
    ∀ line ∈ program source, line.stmt.Suits ρ := by
  intro line hline
  have hmem : line.stmt ∈ statements source := by
    rw [← List.map_id (statements source), ← map_program source id]
    exact List.mem_map_of_mem hline
  obtain ⟨n, hn⟩ := List.getElem?_of_mem hmem
  refine ⟨fun x hx => ?_, fun w hw => ?_⟩
  · exact (hlabels x).2 ⟨n + 1, Option.bind_eq_some_iff.2 ⟨_, hn, hx⟩⟩
  · exact ⟨hwritten w ⟨_, hmem, hw⟩, hfresh w ⟨_, hmem, hw⟩⟩

end Source

/-- A text with its labels renamed is assembled like the text: it writes the same, starts at the
    same cell, has the same cells for its lines and the same findings, and the new names have what
    the old ones have. The new names must be different identifiers, and none of them may be the name
    in an operand that is not a label. -/
theorem assemble_renames (ρ : Renaming) {source source' : String}
    (hlabels : ∀ x, ρ.renames x = true ↔ ∃ line, Source.defines? source line = some x)
    (hwritten : ∀ word, Source.IsOperand source word → ρ.renames (Operand.bare word) = true →
      ∃ mode, word = Mode.mark mode (Operand.bare word))
    (hfresh : ∀ word, Source.IsOperand source word → ρ.renames (Operand.bare word) = false →
      ∀ x, ρ.renames x = true → ρ.name x ≠ Operand.bare word)
    (hrenames : Source.Renames ρ source source') :
    (assemble source').object.writes = (assemble source).object.writes ∧
      (assemble source').object.start = (assemble source).object.start ∧
      (assemble source').object.symbols.lines = (assemble source).object.symbols.lines ∧
      (assemble source').findings = (assemble source).findings ∧
      ∀ y b, (assemble source').object.symbols.labels[y]? = some b ↔
        ∃ x, ρ.renames x = true ∧ ρ.name x = y ∧
          (assemble source).object.symbols.labels[x]? = some b := by
  have hsettled := Pass.settled_rename (Source.suits_program hlabels hwritten hfresh)
  rw [← Source.program_of_renames hrenames] at hsettled
  simp only [assemble]
  generalize Pass.settled (Source.program source) = p at hsettled ⊢
  generalize Pass.settled (Source.program source') = p' at hsettled ⊢
  obtain ⟨hwrites, hstart, hlines, hfindings⟩ := hsettled.object
  exact ⟨hwrites, hstart, hlines, hfindings, fun y b => hsettled.layout.labels.eq_some_iff⟩

/-- The two labels of the text change places, the one that is carried to a line of code and the one
    that is used before it is defined. -/
theorem assemble_renames_swap :
    (assemble "B: ; loop\n\n  ADD $A\nSUB 7\nBRA [B]\nA: 5").object.writes =
        (assemble "A:\n\nADD $B\nSUB 7\nBRA [A]\nB: 5").object.writes ∧
      (assemble "A:\n\nADD $B\nSUB 7\nBRA [A]\nB: 5").object.symbols.labels["A"]? =
        some ⟨0, 3⟩ ∧
      (assemble "B: ; loop\n\n  ADD $A\nSUB 7\nBRA [B]\nA: 5").object.symbols.labels["B"]? =
        some ⟨0, 3⟩ := by
  have hlabels : ∀ x, (x == "A" || x == "B") = true ↔
      ∃ line, Source.defines? "A:\n\nADD $B\nSUB 7\nBRA [A]\nB: 5" line = some x := by
    have hdefines : ∀ s ∈ Source.statements "A:\n\nADD $B\nSUB 7\nBRA [A]\nB: 5",
        s.defines?.all (fun x => x == "A" || x == "B") = true := by
      decide +kernel
    intro x
    constructor
    · intro hx
      rcases Bool.or_eq_true_iff.1 hx with h | h
      · exact ⟨3, beq_iff_eq.1 h ▸ by decide +kernel⟩
      · exact ⟨6, beq_iff_eq.1 h ▸ by decide +kernel⟩
    · rintro ⟨line, hline⟩
      obtain ⟨s, hs, hx⟩ := Option.bind_eq_some_iff.1 hline
      obtain ⟨n, rfl⟩ := Source.exists_eq_succ_of_defines? hline
      simpa [hx] using hdefines s (List.mem_of_getElem? hs)
  have hoperands : ∀ word,
      Source.IsOperand "A:\n\nADD $B\nSUB 7\nBRA [A]\nB: 5" word →
        word = "$B" ∨ word = "7" ∨ word = "[A]" := by
    have hall : ∀ s ∈ Source.statements "A:\n\nADD $B\nSUB 7\nBRA [A]\nB: 5",
        s.operand?.all (["$B", "7", "[A]"].contains ·) = true := by
      decide +kernel
    rintro word ⟨s, hs, hword⟩
    simpa [hword] using hall s hs
  have hrenamed := assemble_renames
    (Renaming.swap "A" "B" (by decide +kernel) (by decide +kernel)) hlabels
    (fun word hword hlabel => by
      rcases hoperands word hword with rfl | rfl | rfl
      · exact ⟨.immediate, by decide +kernel⟩
      · exact absurd hlabel (by decide +kernel)
      · exact ⟨.indirect, by decide +kernel⟩)
    (fun word hword hlabel x hx => by
      rcases hoperands word hword with rfl | rfl | rfl
      · exact absurd hlabel (by decide +kernel)
      · rcases Bool.or_eq_true_iff.1 hx with h | h
        · obtain rfl := beq_iff_eq.1 h
          decide +kernel
        · obtain rfl := beq_iff_eq.1 h
          decide +kernel
      · exact absurd hlabel (by decide +kernel))
    (show Source.Renames _ "A:\n\nADD $B\nSUB 7\nBRA [A]\nB: 5"
      "B: ; loop\n\n  ADD $A\nSUB 7\nBRA [B]\nA: 5" by unfold Source.Renames; decide +kernel)
  have hA : (assemble "A:\n\nADD $B\nSUB 7\nBRA [A]\nB: 5").object.symbols.labels["A"]? =
      some ⟨0, 3⟩ := by
    decide +kernel
  obtain ⟨hwrites, -, -, -, hnames⟩ := hrenamed
  exact ⟨hwrites, hA, (hnames "B" ⟨0, 3⟩).2 ⟨"A", by decide +kernel, by decide +kernel, hA⟩⟩

end DecimalMachine
