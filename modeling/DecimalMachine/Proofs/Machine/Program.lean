import DecimalMachine.Proofs.Assembly.Settling
import DecimalMachine.Proofs.Instr.Format
import DecimalMachine.Proofs.Machine.Loading

set_option autoImplicit false

/-! # Programs in memory

What a clean source text says is what stands in memory after loading it. In a text without defects
no label clashes with itself, so in the settled pass every operand has seen the labels as they are
in the end, no matter whether they were defined in front of it or after it (`entry_of_clean`). If
moreover no cell is written twice, every line is found again at its own cell: a value as that
value, and an instruction as the instruction with the operand it names (`Machine.Holds`). -/

namespace DecimalMachine

/-! ## Clean texts -/

theorem assembleClean_eq_ok {source : String} {o : Object} (h : assembleClean source = .ok o) :
    o = (Pass.settled (Source.program source)).object ∧
      ∀ e ∈ (Pass.settled (Source.program source)).entries, e.defects = [] := by
  have hparts : assemble source = ⟨o, []⟩ := by
    unfold assembleClean at h
    split at h
    · rename_i o' ho
      rw [ho, Except.ok.inj h]
    · exact absurd h (by simp)
  unfold assemble at hparts
  obtain ⟨hobject, hfindings⟩ := Assembled.mk.inj hparts
  refine ⟨hobject.symm, ?_⟩
  intro e he
  have := List.flatMap_eq_nil_iff.1 hfindings e he
  simpa [Entry.findings] using this

theorem assembleClean_of_findings_eq_nil {source : String} (h : (assemble source).findings = []) :
    assembleClean source = .ok (assemble source).object := by
  unfold assembleClean
  split
  · rename_i o ho
    rw [ho]
  · rename_i o findings hne ho
    rw [ho] at h
    exact absurd h hne

theorem assembleClean_of_defects_eq_nil {source : String}
    (h : ∀ e ∈ (Pass.settled (Source.program source)).entries, e.defects = []) :
    assembleClean source = .ok (Pass.settled (Source.program source)).object := by
  have hfindings : (assemble source).findings = [] := by
    rw [assemble, Pass.findings, List.flatMap_eq_nil_iff]
    intro e he
    rw [Entry.findings, h e he, List.map_nil]
  rw [assembleClean_of_findings_eq_nil hfindings, assemble]

/-- The entry of a line of a clean text: its statement has seen the labels of the object file. -/
theorem entry_of_clean {source : String} {o : Object} (h : assembleClean source = .ok o) {n : Nat}
    {s : Stmt} (hs : (Source.statements source)[n]? = some s) :
    ∃ entry cur wide,
      (Pass.settled (Source.program source)).entries[n]? = some entry ∧
      entry.line.stmt = s ∧ entry.site? = s.site? cur ∧
      entry.writes = ((s.emit o.symbols.address? wide).cells.zipIdx (entry.site?.getD 0)).map
        (fun (v, a) => (a, v)) ∧
      (s.emit o.symbols.address? wide).defects = [] ∧
      o.symbols.lineAddress? (n + 1) = entry.mapping?.map (·.2) := by
  obtain ⟨rfl, hclean⟩ := assembleClean_eq_ok h
  have hmapped := Source.lineAddress?_settled source n
  obtain ⟨lines, hrun, -, hlines⟩ := Source.exists_settled_eq_run source
  generalize Pass.settled (Source.program source) = p at hclean hmapped hrun ⊢
  obtain ⟨wide, hline⟩ := hlines n s hs
  have hnoclash : ∀ e ∈ (Pass.run p.symbols.address? lines).entries,
      Defect.overlappingLabel ∉ e.defects := by
    intro e he
    rw [← hrun] at he
    simp [hclean e he]
  have hseen := Pass.seen_eq_of_not_mem _ (by rw [← hrun]) hnoclash hline
  generalize hlay : Layout.walk p.symbols.address? {} (lines.take n) = lay at hseen
  have hemission : lay.emission p.symbols.address? ⟨n + 1, s, wide⟩ =
      s.emit p.symbols.address? wide := by
    rw [Layout.emission, hseen]
  have hentry := Pass.getElem?_entries_of_eq_run hrun hline
  rw [hlay] at hentry
  have hdefects := hclean _ (List.mem_of_getElem? hentry)
  rw [Layout.step_fst, hemission] at hentry hdefects
  refine ⟨_, lay.cursors, wide, hentry, rfl, rfl, rfl, (List.append_eq_nil_iff.1 hdefects).2, ?_⟩
  rw [hentry] at hmapped
  exact hmapped

/-- An item that is put somewhere without a defect stands somewhere. -/
theorem Stmt.isSome_site?_of_clean {place : Option Place} {item : Item} {known : Lookup}
    {wide : Bool} (hdefects : ((put place item).emit known wide).defects = []) (cur : Cursors) :
    ((put place item).site? cur).isSome ∧
      (put place item).emit known wide = emitItem known wide place item := by
  have hplace : isMisplaced place = false := by
    cases hm : isMisplaced place with
    | false => rfl
    | true => simp [emit, hm, Emission.ofDefect] at hdefects
  have hemit : (put place item).emit known wide = emitItem known wide place item := by
    simp [emit, hplace]
  refine ⟨?_, hemit⟩
  rcases place with _ | ⟨name⟩ | ⟨w⟩
  · cases item with
    | value v => rfl
    | instr mnemonic word => rfl
    | word w =>
        rw [hemit] at hdefects
        simp only [emitItem, emitWord, notHalt] at hdefects
        split at hdefects
        · rename_i hw
          simp [site?, hw]
        all_goals exact absurd hdefects (by simp)
  · exact isSome_site?_of_defines? rfl cur
  · rw [isMisplaced, Option.isNone_eq_false_iff] at hplace
    exact hplace

/-- An item that is put somewhere without a defect is put into one cell at least. -/
theorem Stmt.cells_ne_nil_of_clean {place : Option Place} {item : Item} {known : Lookup}
    {wide : Bool} (hdefects : ((put place item).emit known wide).defects = []) :
    ((put place item).emit known wide).cells ≠ [] := by
  have hemit := (isSome_site?_of_clean hdefects {}).2
  rw [hemit] at hdefects ⊢
  cases item with
  | value v => exact List.cons_ne_nil _ _
  | word w =>
      simp only [emitItem, emitWord, notHalt] at hdefects ⊢
      split at hdefects
      · rename_i hw
        simp [hw]
      all_goals exact absurd hdefects (by simp)
  | instr mnemonic word =>
      simp only [emitItem] at hdefects ⊢
      cases hop : Opcode.ofWord? mnemonic with
      | none => simp [emitInstr, hop, Emission.ofDefect] at hdefects
      | some op =>
          by_cases hne : op = .hlt
          · subst hne
            simp [emitInstr, hop, Emission.ofCell]
          · obtain ⟨x, e, -, -, hcells⟩ := cells_emitInstr_of_clean hop hne hdefects
            rw [hcells]
            cases e <;> exact List.cons_ne_nil _ _

/-! ## What a source says -/

/-- The operand that a word names under some labels: the cell of the label that it is as it
    stands, or else, in the mode it is written in, the number or the cell of the label that is
    left of it without the marks of that mode. -/
inductive Symbols.Names (s : Symbols) (word : String) : Operand → Prop
  | label {a : Nat} (h : s.address? word = some a) : Names s word ⟨.direct, Cell.ofAddress a⟩
  | number {v : Cell} (h : s.address? word = none)
      (hv : Token.int? (Operand.bare word) = some v) :
      Names s word ⟨Operand.writtenMode word, v⟩
  | reference {a : Nat} (h : s.address? word = none)
      (hv : Token.int? (Operand.bare word) = none)
      (ha : s.address? (Operand.bare word) = some a) :
      Names s word ⟨Operand.writtenMode word, Cell.ofAddress a⟩

theorem Symbols.names_of_resolve? {s : Symbols} {word : String} {x : Operand}
    (h : Operand.resolve? s.address? word = some x) : s.Names word x := by
  unfold Operand.resolve? at h
  cases ha : s.address? word with
  | some a =>
      simp only [ha, Option.some.injEq] at h
      exact h ▸ .label ha
  | none =>
      simp only [ha, Operand.value?] at h
      cases hv : Token.int? (Operand.bare word) with
      | some v =>
          simp only [hv, Option.some_or, Option.map_some, Option.some.injEq] at h
          exact h ▸ .number ha hv
      | none =>
          simp only [hv, Option.none_or, Option.map_map, Option.map_eq_some_iff] at h
          obtain ⟨b, hb, rfl⟩ := h
          exact .reference ha hv hb

/-- What is read at a cell is an item of the source, in so many cells: data as its value, an
    instruction as what is decoded there. -/
inductive Machine.Holds (m : Machine) (a : Nat) : Item → Nat → Prop
  | value {v : Cell} (h : m.core.memory.read a = .ok v) : Holds m a (.value v) 1
  | halt {w : String} (hop : Opcode.ofWord? w = some .hlt)
      (h : ({ m.core with pc := a } : Core).fetch = .ok (.halt, .packed)) : Holds m a (.word w) 1
  | haltInstr {mnemonic word : String} (hop : Opcode.ofWord? mnemonic = some .hlt)
      (h : ({ m.core with pc := a } : Core).fetch = .ok (.halt, .packed)) :
      Holds m a (.instr mnemonic word) 1
  | instr {mnemonic word : String} {op : Opcode} {x : Operand} {w : Width}
      (hop : Opcode.ofWord? mnemonic = some op) (hne : op ≠ .hlt) (hx : m.symbols.Names word x)
      (h : ({ m.core with pc := a } : Core).fetch = .ok (⟨op, some x⟩, w)) :
      Holds m a (.instr mnemonic word) w.cells

namespace Machine

/-- A machine with a halt in a cell fetches it from there. -/
theorem fetch_halt {m : Machine} {a : Nat} (h : m.core.memory.read a = .ok haltWord) :
    ({ m.core with pc := a } : Core).fetch = .ok (.halt, .packed) := by
  simp only [Core.fetch, h]
  rfl

/-- A machine that has the cells of an item in memory holds the item, if the item is sound. -/
theorem holds_of_read {m : Machine} {a : Nat} {place : Option Place} {item : Item} {wide : Bool}
    (hdefects : (Stmt.emitItem m.symbols.address? wide place item).defects = [])
    (hread : ∀ i v, (Stmt.emitItem m.symbols.address? wide place item).cells[i]? = some v →
      m.core.memory.read (a + i) = .ok v) :
    m.Holds a item (Stmt.emitItem m.symbols.address? wide place item).cells.length := by
  cases item with
  | value v => exact .value (hread 0 v rfl)
  | word w =>
      simp only [Stmt.emitItem, Stmt.emitWord, notHalt] at hdefects hread ⊢
      cases hop : Opcode.ofWord? w with
      | none => simp [hop] at hdefects
      | some op =>
          cases op with
          | hlt =>
              simp only [hop] at hread ⊢
              exact .halt hop (fetch_halt (hread 0 haltWord rfl))
          | _ => simp [hop] at hdefects
  | instr mnemonic word =>
      simp only [Stmt.emitItem] at hdefects hread ⊢
      cases hop : Opcode.ofWord? mnemonic with
      | none => simp [emitInstr, hop, Emission.ofDefect] at hdefects
      | some op =>
          by_cases hne : op = .hlt
          · subst hne
            simp only [emitInstr, hop, Emission.ofCell] at hread ⊢
            exact .haltInstr hop (fetch_halt (hread 0 haltWord rfl))
          · obtain ⟨x, e, hx, he, hcells⟩ := cells_emitInstr_of_clean hop hne hdefects
            rw [hcells] at hread ⊢
            rw [Encoded.length_words]
            refine .instr hop hne (Symbols.names_of_resolve? hx) ?_
            obtain ⟨first, hfirst⟩ : ∃ first, e.words[0]? = some first := by
              cases e <;> exact ⟨_, rfl⟩
            simp only [Core.fetch]
            rw [show m.core.memory.read a = .ok first from hread 0 first hfirst]
            exact Instr.decode_words he hfirst fun v hv => hread 1 v hv

end Machine

/-! ## Loaded programs -/

theorem Object.writes_of_settled {program : List Line} {n : Nat} {entry : Entry}
    (h : (Pass.settled program).entries[n]? = some entry) {w : Nat × Cell}
    (hw : w ∈ entry.writes) : w ∈ (Pass.settled program).object.writes := by
  exact List.mem_flatMap.2 ⟨entry, List.mem_of_getElem? h, hw⟩

/-- A program that is assembled from a clean text and writes no cell twice can be loaded into any
    machine with room for it. Every item of the text is then found in memory at the cell of its
    line, in as many cells as its line wrote, whatever the passes had to widen. -/
theorem load_assembled {source : String} {o : Object} {m : Machine}
    (hclean : assembleClean source = .ok o) (honce : (o.writes.map (·.1)).Nodup)
    (hroom : o.extent ≤ m.core.memory.size) :
    ∃ m', m.load o = .ok m' ∧ m'.symbols = o.symbols ∧
      ∀ n place item, (Source.statements source)[n]? = some (.put place item) →
        ∃ entry a, (Pass.settled (Source.program source)).entries[n]? = some entry ∧
          entry.site? = some a ∧
          ((Stmt.put place item).isMapped = true → o.symbols.lineAddress? (n + 1) = some a) ∧
          m'.Holds a item entry.writes.length := by
  obtain ⟨m', hload, hsymbols, hcells⟩ := Machine.load_eq_ok hroom
  refine ⟨m', hload, hsymbols, ?_⟩
  intro n place item hs
  obtain ⟨entry, cur, wide, hentry, hstmt, hsite, hwrites, hdefects, haddress⟩ :=
    entry_of_clean hclean hs
  obtain ⟨hsome, hemit⟩ := Stmt.isSome_site?_of_clean hdefects cur
  obtain ⟨a, ha⟩ := Option.isSome_iff_exists.1 hsome
  rw [ha] at hsite
  rw [hemit] at hwrites hdefects
  refine ⟨entry, a, hentry, hsite, ?_, ?_⟩
  · intro hmapped
    rw [haddress, Entry.mapping?, hstmt, if_pos hmapped, hsite]
    rfl
  · rw [hwrites, List.length_map, List.length_zipIdx]
    rw [← hsymbols] at hwrites hdefects ⊢
    refine Machine.holds_of_read hdefects ?_
    intro i v hv
    have hmem : (a + i, v) ∈ entry.writes := by
      rw [hwrites, hsite]
      exact List.mem_map.2 ⟨(v, a + i), List.mk_add_mem_zipIdx_iff_getElem?.2 hv, rfl⟩
    refine Machine.read_of_mem_writes hroom hcells honce ?_
    obtain ⟨rfl, -⟩ := assembleClean_eq_ok hclean
    exact Object.writes_of_settled hentry hmem

/-- The label comes after its use, at a cell that does not fit into one cell with the mnemonic. -/
theorem load_assembled_forward_reference :
    ∃ o m', assembleClean "INC N\nHLT\n.data 100\nN: 5" = .ok o ∧
      (Machine.new default 0 {}).load o = .ok m' ∧ m'.Holds 0 (.instr "INC" "N") 2 := by
  have hclean : assembleClean "INC N\nHLT\n.data 100\nN: 5" = .ok _ :=
    assembleClean_of_findings_eq_nil (by decide +kernel)
  obtain ⟨m', hload, -, hholds⟩ := load_assembled (m := Machine.new default 0 {}) hclean
    (by decide +kernel) (by rw [Machine.size_new]; decide +kernel)
  obtain ⟨entry, a, hentry, hsite, -, hitem⟩ :=
    hholds 0 none (.instr "INC" "N") (by decide +kernel)
  have hfirst : (Pass.settled (Source.program "INC N\nHLT\n.data 100\nN: 5")).entries[0]?.map
      (fun e => (e.site?, e.writes.length)) = some (some 0, 2) := by
    decide +kernel
  rw [hentry, Option.map_some, hsite] at hfirst
  obtain ⟨rfl, hcount⟩ : a = 0 ∧ entry.writes.length = 2 := by simpa using hfirst
  exact ⟨_, m', hclean, hload, hcount ▸ hitem⟩

end DecimalMachine
