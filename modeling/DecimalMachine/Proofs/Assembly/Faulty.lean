import DecimalMachine.Proofs.Assembly.Findings

set_option autoImplicit false

/-! # What lines with defects emit

Assembly goes on behind a defect, and makes of the line what it can. A line that cannot be assembled
is to put nothing into memory, and there is one kind that does all the same
(`Stmt.cells_emit_of_voids`): behind a label, a word is taken for a halt, which is written before
the word turns out to be none and is reported. By itself, behind the number of a cell or before an
operand such a word puts nothing into memory. An operand that means nothing is assembled as 0, which
every instruction packs (`Instr.packed_of_encode_zero`). The line is not wide then, and never was:
no pass knows a label that is not known in the end, so the operand has meant nothing in any of them
(`Pass.getElem?_lines_nth_of_unresolved`). -/

namespace DecimalMachine

/-- A defect with which a line cannot be assembled at all. -/
def Defect.voids : Defect → Bool
  | unknownMnemonic | invalidMode | malformedAddress => true
  | _ => false

/-! ## Operands -/

/-- A word that names no operand under some labels names none if fewer of them are known. -/
theorem Operand.resolve?_eq_none_of_le {known known' : Lookup} {word : String}
    (hle : ∀ name, (known name).isSome → (known' name).isSome)
    (h : resolve? known' word = none) : resolve? known word = none := by
  have hnone : ∀ name, known' name = none → known name = none := by
    intro name
    rw [← Option.not_isSome_iff_eq_none, ← Option.not_isSome_iff_eq_none]
    exact mt (hle name)
  rw [resolve?_eq_none_iff] at h ⊢
  exact ⟨hnone _ h.1, h.2.1, hnone _ h.2.2⟩

/-- Every instruction that can be encoded with a zero is packed with it. -/
theorem Instr.packed_of_encode_zero {op : Opcode} {mode : Mode} {e : Encoded}
    (h : (⟨op, some ⟨mode, 0⟩⟩ : Instr).encode = .ok e) : ∃ w, e = .packed w := by
  obtain ⟨f, hf, hwidth⟩ := width_of_encodeFrom h
  have hlimit : 0 < f.limit := (Format.isProper_table _ (Format.mem_table hf)).2.1
  have hpacked : e.width = .packed := hwidth.2 ⟨rfl, Int.le_refl 0, Int.ofNat_lt.2 hlimit⟩
  cases e with
  | packed w => exact ⟨w, rfl⟩
  | wide w v => exact absurd hpacked (by simp [Encoded.width])

theorem Instr.immediate_of_encode_eq_error {op : Opcode} {x : Operand} {d : Defect}
    (hne : op ≠ .hlt) (h : (⟨op, some x⟩ : Instr).encode = .error d) :
    (op = .inc ∨ op = .dec) ∧ x.mode = .immediate := by
  cases encodeFrom_eq_error_iff.1 h with
  | halt => exact absurd rfl hne
  | inc => exact ⟨.inl rfl, rfl⟩
  | dec => exact ⟨.inr rfl, rfl⟩

/-! ## Statements -/

namespace Stmt

variable {s : Stmt} {op : Opcode} {known : Lookup} {wide : Bool} {word : String} {d : Defect}

/-- A word alone emits a halt, unless it is none and no label stands in front of it. -/
theorem cells_emitWord (place : Option Place) (w : String) :
    (emitWord place w).cells =
      if Opcode.ofWord? w == some .hlt || (place matches some (.label _)) then [haltWord]
      else [] := by
  rfl

theorem cells_emitWord_of_mem {place : Option Place} {w : String}
    (h : d ∈ (emitWord place w).defects) (hplace : ∀ name, place ≠ some (.label name)) :
    (emitWord place w).cells = [] := by
  have hdefects : d ∈ notHalt w := h
  have hop : Opcode.ofWord? w ≠ some .hlt := by
    intro hop
    simp [notHalt, hop] at hdefects
  rcases place with _ | ⟨name⟩ | ⟨c⟩
  · simp [cells_emitWord, hop]
  · exact absurd rfl (hplace name)
  · simp [cells_emitWord, hop]

theorem cells_emitInstr_of_voids {mnemonic : String} (hd : d.voids = true)
    (h : d ∈ (emitInstr known wide mnemonic word).defects) :
    (emitInstr known wide mnemonic word).cells = [] := by
  cases hop : Opcode.ofWord? mnemonic with
  | none => simp [emitInstr, hop, Emission.ofDefect]
  | some op =>
      by_cases hne : op = .hlt
      · subst hne
        simp [emitInstr, hop, Emission.ofCell] at h
      · rw [emitInstr_eq hop hne] at h ⊢
        split at h
        · -- what is encoded has a malformed operand at most
          simp only [Operand.malformed] at h
          split at h
          · obtain rfl := List.mem_singleton.1 h
            exact absurd hd (by simp [Defect.voids])
          · exact absurd h List.not_mem_nil
        · rfl

/-- A statement that cannot be assembled emits nothing, if it is not a label with a word behind
    it. -/
theorem cells_emit_of_voids (hd : d.voids = true) (h : d ∈ (s.emit known wide).defects)
    (hword : ∀ name w, s ≠ .put (some (.label name)) (.word w)) :
    (s.emit known wide).cells = [] := by
  cases s with
  | blank | label | overlong => rfl
  | directive name argument =>
      simp only [emit]
      split
      · rfl
      · split <;> rfl
  | put place item =>
      simp only [emit] at h ⊢
      split
      · rfl
      · rename_i hplace
        rw [if_neg hplace] at h
        cases item with
        | value v => exact absurd h (by simp [emitItem, Emission.ofCell])
        | word w =>
            refine cells_emitWord_of_mem h ?_
            rintro name rfl
            exact hword name w rfl
        | instr mnemonic operand => exact cells_emitInstr_of_voids hd h

/-- A label with a word behind it emits a halt, also if the word is none. -/
theorem cells_emit_labeledWord (name w : String) :
    ((put (some (.label name)) (.word w)).emit known wide).cells = [haltWord] := by
  simp [emit, isMisplaced, emitItem, cells_emitWord]

/-- An instruction whose word names no operand is assembled with a zero in the mode of the word, and
    it has a cell to stand at. -/
theorem Instructs.cells_emit_of_unresolved (h : s.Instructs op word)
    (hnone : Operand.resolve? known word = none) :
    (s.emit known false).cells =
      match (⟨op, some ⟨Operand.writtenMode word, 0⟩⟩ : Instr).encode with
      | .ok e => e.words
      | .error _ => [] := by
  obtain ⟨hplace, hop, hne⟩ := h
  have htaken : Operand.taken known word = ⟨Operand.writtenMode word, 0⟩ := by
    rw [Operand.taken, hnone]
    rfl
  rw [emit, if_neg (by simp [isMisplaced_eq_false_iff.2 hplace]), emitItem,
    emitInstr_eq hop hne, htaken]
  change (match (⟨op, some ⟨Operand.writtenMode word, 0⟩⟩ : Instr).encode with
    | .ok e => _
    | .error d => _ : Emission).cells = _
  split <;> rfl

theorem Instructs.ne_hlt (h : s.Instructs op word) : op ≠ .hlt := by
  obtain ⟨-, -, hne⟩ := h
  exact hne

theorem Instructs.isMapped (h : s.Instructs op word) : s.isMapped = true := by
  obtain ⟨-, -, -⟩ := h
  rename_i place mnemonic
  cases place <;> rfl

theorem Instructs.isSome_site? (h : s.Instructs op word) (cur : Cursors) :
    (s.site? cur).isSome := by
  obtain ⟨hplace, -, -⟩ := h
  rename_i place mnemonic
  rcases place with _ | ⟨name⟩ | ⟨c⟩
  · rfl
  · rfl
  · have hmisplaced := isMisplaced_eq_false_iff.2 hplace
    rw [isMisplaced, Option.isNone_eq_false_iff] at hmisplaced
    exact hmisplaced

theorem Instructs.isWide_emit_of_unresolved (h : s.Instructs op word)
    (hnone : Operand.resolve? known word = none) : (s.emit known false).isWide = false := by
  rw [Emission.isWide, h.cells_emit_of_unresolved hnone]
  split
  · rename_i e he
    obtain ⟨w, rfl⟩ := Instr.packed_of_encode_zero he
    rfl
  · rfl

end Stmt

/-! ## Passes -/

namespace Pass

variable {program : List Line}

/-- No pass over a program knows a label before it that the program does not define. -/
theorem isSome_knownBefore_le (n : Nat) (name : String) (h : (knownBefore program n name).isSome) :
    (linesBefore program n).any (·.stmt.defines? = some name) := by
  cases n with
  | zero => exact absurd h (by simp [knownBefore])
  | succ n =>
      rw [knownBefore, isSome_address?_nth] at h
      rw [linesBefore, any_stmt_lines_nth program fun s => s.defines? = some name]
      exact h

/-- A pass leaves an instruction packed whose operand means nothing under the labels that its lines
    define. -/
theorem getElem?_lines_run_of_unresolved {before known : Lookup} {lines : List Line}
    (hbefore : ∀ name, (before name).isSome → lines.any (·.stmt.defines? = some name))
    (hknown : ∀ name, lines.any (·.stmt.defines? = some name) → (known name).isSome)
    {op : Opcode} {word : String} (hnone : Operand.resolve? known word = none) {i : Nat}
    {line : Line} (hline : lines[i]? = some line) (hs : line.stmt.Instructs op word)
    (hwide : line.wide = false) : (run before lines).lines[i]? = some line := by
  obtain ⟨number, s, wide⟩ := line
  obtain rfl : wide = false := hwide
  have hseen := Operand.resolve?_eq_none_of_le
    (fun name h => hknown name (isSome_seen_le before hline hbefore name h)) hnone
  have hpacked := hs.isWide_emit_of_unresolved hseen
  rw [getElem?_lines_of_entry (getElem?_entries_of_eq_run rfl hline), Layout.step_fst,
    Layout.emission, hpacked]
  rfl

/-- An instruction whose operand means nothing in the end is packed in all passes. -/
theorem getElem?_lines_nth_of_unresolved {known : Lookup}
    (hknown : ∀ name, (known name).isSome = program.any (·.stmt.defines? = some name))
    {op : Opcode} {word : String} (hnone : Operand.resolve? known word = none) {i : Nat}
    {line : Line} (hline : program[i]? = some line) (hs : line.stmt.Instructs op word)
    (hwide : line.wide = false) (n : Nat) : (nth program n).lines[i]? = some line := by
  have hnames : ∀ name, (linesBefore program n).any (·.stmt.defines? = some name) →
      (known name).isSome := by
    intro name h
    rw [hknown]
    cases n with
    | zero => exact h
    | succ n =>
        rw [linesBefore, any_stmt_lines_nth program fun s => s.defines? = some name] at h
        exact h
  have hbefore : (linesBefore program n)[i]? = some line := by
    cases n with
    | zero => exact hline
    | succ n => exact getElem?_lines_nth_of_unresolved hknown hnone hline hs hwide n
  rw [nth_eq_run]
  exact getElem?_lines_run_of_unresolved (isSome_knownBefore_le n) hnames hnone hbefore hs hwide

theorem writes_object (p : Pass) : p.object.writes = (p.entries.map (·.writes)).flatten :=
  List.flatMap_def

end Pass

/-! ## Contributions -/

namespace Source

/-- What a line, counted from 1, writes into memory. -/
def contribution (source : String) : Nat → List (Nat × Cell)
  | 0 => []
  | n + 1 => ((Pass.settled (program source)).entries[n]?.map (·.writes)).getD []

theorem contribution_of_entry {source : String} {n : Nat} {e : Entry}
    (he : (Pass.settled (program source)).entries[n]? = some e) :
    contribution source (n + 1) = e.writes := by
  rw [contribution, he]
  rfl

/-- The object file holds what its lines write, one after the other. -/
theorem flatMap_contribution (source : String) :
    (assemble source).object.writes =
      (List.range' 1 (statements source).length).flatMap (contribution source) := by
  have hlength : (Pass.settled (program source)).entries.length = (statements source).length := by
    have hlines := congrArg List.length (Pass.map_lines_settled (program source) (fun _ s => s)
      wide_eq_false_of_mem_program)
    rw [List.length_map, List.length_map, length_program, Pass.lines, List.length_map] at hlines
    exact hlines
  have hwrites : (List.range' 1 (statements source).length).map (contribution source) =
      (Pass.settled (program source)).entries.map (·.writes) := by
    rw [← hlength]
    refine List.ext_getElem (by simp) fun n hn hn' => ?_
    simp only [List.length_map] at hn'
    rw [List.getElem_map, List.getElem_map, List.getElem_range', Nat.one_mul, Nat.add_comm]
    exact contribution_of_entry (List.getElem?_eq_getElem hn')
  rw [List.flatMap_def, hwrites]
  exact Pass.writes_object _

/-- A line writes what its statement emits under the names that are known in the end, from the cell
    on at which it stands. -/
theorem exists_contribution {source : String} {n : Nat} {s : Stmt}
    (hs : statement? source (n + 1) = some s) :
    ∃ (known : Lookup) (wide : Bool) (cur : Cursors),
      (∀ name, (known name).isSome = ((assemble source).object.symbols.address? name).isSome) ∧
      (Pass.settled (program source)).lines[n]? =
        some ⟨n + 1, s, wide || (s.emit known wide).isWide⟩ ∧
      (assemble source).object.symbols.lineAddress? (n + 1) =
        (if s.isMapped then s.site? cur else none) ∧
      contribution source (n + 1) =
        ((s.emit known wide).cells.zipIdx ((s.site? cur).getD 0)).map fun (v, a) => (a, v) := by
  obtain ⟨lay, wide, hentry, hseen, -⟩ := exists_step_settled hs
  exact ⟨_, wide, lay.cursors, hseen, Pass.getElem?_lines_of_entry hentry,
    lineAddress?_of_entry hentry, contribution_of_entry hentry⟩

/-- Whatever is wrong with a line, but for a label that clashes, is wrong with its statement. -/
theorem exists_statement_of_mem_findings {source : String} {line : Nat} {d : Defect}
    (h : ⟨d, line⟩ ∈ (assemble source).findings) (hd : d ≠ .overlappingLabel) :
    ∃ n s, line = n + 1 ∧ statement? source (n + 1) = some s ∧
      d ∈ (s.emit (assemble source).object.symbols.address? false).defects := by
  rcases mem_findings_iff.1 h with ⟨s, hs, hmem⟩ | ⟨hclash, -⟩
  · obtain ⟨n, rfl⟩ := exists_eq_succ_of_statement? hs
    exact ⟨n, s, rfl, hs, hmem⟩
  · exact absurd hclash hd

/-- A line that cannot be assembled writes nothing, if it is not a label with a word behind it. -/
theorem contribution_of_voids {source : String} {line : Nat} {d : Defect} (hd : d.voids = true)
    (h : ⟨d, line⟩ ∈ (assemble source).findings)
    (hword : ∀ name w, statement? source line ≠ some (.put (some (.label name)) (.word w))) :
    contribution source line = [] := by
  obtain ⟨n, s, rfl, hs, hmem⟩ := exists_statement_of_mem_findings h (by rintro rfl; cases hd)
  obtain ⟨known, wide, cur, hknown, -, -, hwrites⟩ := exists_contribution hs
  rw [← Stmt.defects_emit_congr hknown s] at hmem
  rw [hwrites, Stmt.cells_emit_of_voids hd hmem]
  · rfl
  · rintro name w rfl
    exact hword name w hs

/-- A label with a word behind it writes one halt to its cell. -/
theorem contribution_labeledWord {source name w : String} {line : Nat}
    (hs : statement? source line = some (.put (some (.label name)) (.word w))) :
    ∃ a, (assemble source).object.symbols.lineAddress? line = some a ∧
      contribution source line = [(a, haltWord)] := by
  obtain ⟨n, rfl⟩ := exists_eq_succ_of_statement? hs
  obtain ⟨known, wide, cur, -, -, haddress, hwrites⟩ := exists_contribution hs
  rw [Stmt.cells_emit_labeledWord] at hwrites
  exact ⟨cur.code, haddress, hwrites⟩

/-- An instruction whose operand means nothing is packed in the settled pass. -/
theorem getElem?_lines_settled_of_unresolved {source : String} {n : Nat} {s : Stmt}
    (hs : statement? source (n + 1) = some s) {op : Opcode} {word : String}
    (hinstr : s.Instructs op word)
    (hnone : Operand.resolve? (assemble source).object.symbols.address? word = none) :
    (Pass.settled (program source)).lines[n]? = some ⟨n + 1, s, false⟩ := by
  obtain ⟨k, -, hsettled, -⟩ :=
    Pass.exists_settled_eq_nth (program source) wide_eq_false_of_mem_program
  have hnone : Operand.resolve? (Pass.settled (program source)).symbols.address? word = none :=
    hnone
  rw [hsettled] at hnone ⊢
  exact Pass.getElem?_lines_nth_of_unresolved (Pass.isSome_address?_nth _ k) hnone
    (getElem?_program hs) hinstr rfl k

/-- A line of which only the operand is malformed writes its instruction with a zero. -/
theorem contribution_of_malformedOperand {source : String} {line : Nat}
    (h : ⟨.malformedOperand, line⟩ ∈ (assemble source).findings)
    (hmode : ⟨.invalidMode, line⟩ ∉ (assemble source).findings) :
    ∃ s op word a w, statement? source line = some s ∧ s.Instructs op word ∧
      (assemble source).object.symbols.lineAddress? line = some a ∧
      (⟨op, some ⟨Operand.writtenMode word, 0⟩⟩ : Instr).encode = .ok (.packed w) ∧
      contribution source line = [(a, w)] := by
  obtain ⟨n, s, rfl, hs, hmem⟩ := exists_statement_of_mem_findings h (by simp)
  obtain ⟨op, word, hinstr, hnone⟩ : ∃ op word, s.Instructs op word ∧
      Operand.resolve? (assemble source).object.symbols.address? word = none := by
    simpa using (Stmt.mem_defects_emit_iff (.inl rfl)).1 hmem
  have hencode : ∃ e, (⟨op, some ⟨Operand.writtenMode word, 0⟩⟩ : Instr).encode = .ok e := by
    cases he : (⟨op, some ⟨Operand.writtenMode word, 0⟩⟩ : Instr).encode with
    | ok e => exact ⟨e, rfl⟩
    | error d =>
        obtain ⟨hop, himmediate⟩ := Instr.immediate_of_encode_eq_error hinstr.ne_hlt he
        have hunknown := (Operand.resolve?_eq_none_iff.1 hnone).1
        refine absurd (mem_findings_iff.2 (.inl ⟨s, hs, hinstr.mem_defects_emit_iff.2 ?_⟩)) hmode
        exact .inr ⟨rfl, hop, hunknown, Operand.writtenMode_eq_immediate_iff.1 himmediate⟩
  obtain ⟨e, he⟩ := hencode
  obtain ⟨w, rfl⟩ := Instr.packed_of_encode_zero he
  obtain ⟨known, wide, cur, hknown, hline, haddress, hwrites⟩ := exists_contribution hs
  have hpacked : wide = false := by
    rw [getElem?_lines_settled_of_unresolved hs hinstr hnone] at hline
    exact (Bool.or_eq_false_iff.1 (congrArg Line.wide (Option.some.inj hline)).symm).1
  subst hpacked
  have hcells := hinstr.cells_emit_of_unresolved
    (Operand.resolve?_eq_none_of_le (fun name h => hknown name ▸ h) hnone)
  rw [he] at hcells
  obtain ⟨a, ha⟩ := Option.isSome_iff_exists.1 (hinstr.isSome_site? cur)
  rw [hinstr.isMapped, if_pos rfl, ha] at haddress
  rw [hcells, ha] at hwrites
  exact ⟨s, op, word, a, w, hs, hinstr, haddress, he, hwrites⟩

end Source

/-- Whatever is wrong with a text, its object file holds what its lines write, one after the other.
    A line with an unknown mnemonic, an invalid mode or a malformed address writes nothing, but for
    one kind that fails to keep to that: a label with a word behind it writes one halt to the cell
    of the label, whether the word is a halt or is reported. A line of which only the operand is
    malformed writes one cell, its instruction with a zero in the mode in which the operand is
    written. -/
theorem writes_of_faulty_lines (source : String) :
    (assemble source).object.writes =
      (List.range' 1 (Source.statements source).length).flatMap (Source.contribution source) ∧
    (∀ line d, d.voids = true → ⟨d, line⟩ ∈ (assemble source).findings →
      (∀ name w, Source.statement? source line ≠ some (.put (some (.label name)) (.word w))) →
      Source.contribution source line = []) ∧
    (∀ line name w,
      Source.statement? source line = some (.put (some (.label name)) (.word w)) →
      ∃ a, (assemble source).object.symbols.lineAddress? line = some a ∧
        Source.contribution source line = [(a, haltWord)]) ∧
    (∀ line, ⟨.malformedOperand, line⟩ ∈ (assemble source).findings →
      (∀ d, d.voids = true → ⟨d, line⟩ ∉ (assemble source).findings) →
      ∃ s op word a w, Source.statement? source line = some s ∧ s.Instructs op word ∧
        (assemble source).object.symbols.lineAddress? line = some a ∧
        (⟨op, some ⟨Operand.writtenMode word, 0⟩⟩ : Instr).encode = .ok (.packed w) ∧
        Source.contribution source line = [(a, w)]) := by
  refine ⟨Source.flatMap_contribution source, ?_, ?_, ?_⟩
  · intro line d hd h hword
    exact Source.contribution_of_voids hd h hword
  · intro line name w hs
    exact Source.contribution_labeledWord hs
  · intro line h hothers
    exact Source.contribution_of_malformedOperand h (hothers .invalidMode rfl)

/-- A text with an unknown mnemonic, an invalid mode, a malformed address, a label with a word that
    is no mnemonic, and a malformed operand. -/
theorem writes_of_faulty_lines_each_kind :
    let source := "FOO 5\nINC $2\n-1 ADD 3\nL: FOO\nCPA [BAD]"
    Source.contribution source 1 = [] ∧ Source.contribution source 2 = [] ∧
      Source.contribution source 3 = [] ∧ Source.contribution source 4 = [(0, haltWord)] ∧
      Source.contribution source 5 = [(1, 9310)] ∧
      (assemble source).object.writes = [(0, 0), (1, 9310)] := by
  intro source
  obtain ⟨-, hvoid, hlabeled, hmalformed⟩ := writes_of_faulty_lines source
  have hstatement : Source.statement? source 5 = some (.put none (.instr "CPA" "[BAD]")) := by
    decide +kernel
  have hnoword : ∀ line ≤ 3, ∀ name w,
      Source.statement? source line ≠ some (.put (some (.label name)) (.word w)) := by
    intro line hline name w hs
    have hnone : ∀ line ≤ 3, Source.defines? source line = none := by decide +kernel
    have hdefines := hnone line hline
    rw [Source.defines?, hs] at hdefines
    exact absurd hdefines (by simp [Stmt.defines?])
  refine ⟨hvoid 1 .unknownMnemonic rfl (by decide +kernel) (hnoword 1 (by decide)),
    hvoid 2 .invalidMode rfl (by decide +kernel) (hnoword 2 (by decide)),
    hvoid 3 .malformedAddress rfl (by decide +kernel) (hnoword 3 (by decide)), ?_, ?_,
    by decide +kernel⟩
  · obtain ⟨a, ha, hwrites⟩ := hlabeled 4 "L" "FOO" (by decide +kernel)
    obtain rfl : a = 0 := Option.some.inj (ha.symm.trans (by decide +kernel))
    exact hwrites
  · have hothers : ∀ d, d.voids = true → ⟨d, 5⟩ ∉ (assemble source).findings := by
      rintro (_ | _ | _ | _ | _ | _ | _ | _) hd
      all_goals first | exact absurd hd (by decide) | decide +kernel
    obtain ⟨s, op, word, a, w, hs, hinstr, ha, hencode, hwrites⟩ :=
      hmalformed 5 (by decide +kernel) hothers
    obtain rfl : a = 1 := Option.some.inj (ha.symm.trans (by decide +kernel))
    obtain rfl := Option.some.inj (hs.symm.trans hstatement)
    obtain ⟨-, hop, -⟩ := hinstr
    obtain rfl : op = .cpa := Option.some.inj (hop.symm.trans (by decide +kernel))
    have hpacked : (⟨.cpa, some ⟨Operand.writtenMode "[BAD]", 0⟩⟩ : Instr).encode =
        .ok (.packed 9310) := Instr.read?_eq_whole_iff.1 (by decide +kernel)
    obtain rfl : w = 9310 := Encoded.packed.inj (Except.ok.inj (hencode.symm.trans hpacked))
    exact hwrites

/-- A label with a word behind it that is no mnemonic is reported, and has written a halt where a
    line with that defect is to write nothing. -/
theorem contribution_of_labeled_unknown_word :
    ⟨.unknownMnemonic, 1⟩ ∈ (assemble "L: FOO").findings ∧
      Source.contribution "L: FOO" 1 = [(0, haltWord)] := by
  decide +kernel

end DecimalMachine
