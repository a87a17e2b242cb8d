import DecimalMachine.Proofs.Assembly.Coherence
import DecimalMachine.Proofs.Assembly.LoneLabel
import DecimalMachine.Proofs.Assembly.Segments
import DecimalMachine.Proofs.Machine.Operation

set_option autoImplicit false

/-! # The line of an instruction

Several lines can be found at the cell of an instruction: a label alone is found at the cell that
the next code goes to, and the lines that a label is carried over are labels alone as well. The
look-up by cell takes the last of them. A line that writes there is the only one to do so if no cell
is written twice, and a label alone has its cell in common with the line that the label is carried
to, because nothing in between moves a cursor (`Source.lineAddress?_of_labels`). So the line of
code is the last of the lines at its cell if every label alone is carried to a line of code, and the
look-up finds it (`lineAt?_lineAddress?_of_clean`). -/

namespace DecimalMachine

/-! ## Labels that are carried -/

/-- Only a word alone can be a label alone. -/
theorem Stmt.exists_of_ofWords_eq_label {ws : List String} (h : ofWords ws = .label) :
    ∃ w, ws = [w] := by
  match ws with
  | [] => exact absurd h (by simp [ofWords])
  | [w] => exact ⟨w, rfl⟩
  | [first, second] =>
      rw [ofWords, ofTwo] at h
      split at h
      · exact absurd h (by simp)
      · exact absurd h (by simp)
      · split at h <;> exact absurd h (by simp)
  | [first, mnemonic, operand] =>
      rw [ofWords, ofThree] at h
      split at h <;> exact absurd h (by simp)
  | _ :: _ :: _ :: _ :: _ => exact absurd h (by simp [ofWords])

/-- A label in front of code is defined by it. -/
theorem Stmt.exists_item_of_label {name : String} (hname : Token.isIdentifier name = true)
    {ws : List String} (h : (ofWords ((name ++ ":") :: ws)).putsIn .code = true) :
    ∃ item, ofWords ((name ++ ":") :: ws) = .put (some (.label name)) item ∧
      item.segment = .code := by
  have hne : ws ≠ [] := by
    rintro rfl
    rw [ofWords_loneLabel hname] at h
    exact Bool.false_ne_true h
  obtain ⟨place, item, hput, hsegment⟩ := exists_of_putsIn h
  rcases defines?_ofWords_label hname hne with hdefines | ⟨count, hcount⟩
  · rw [hput] at hdefines ⊢
    rcases place with _ | ⟨l⟩ | ⟨w⟩
    · exact absurd hdefines (by simp [defines?])
    · obtain rfl := Option.some.inj hdefines
      exact ⟨item, rfl, hsegment⟩
    · exact absurd hdefines (by simp [defines?])
  · exact absurd (hput.symm.trans hcount) (by simp)

namespace Source

/-- The words of a line as written, before anything is carried to it, counted from 1. -/
def writtenLine? (source : String) : Nat → Option (List String)
  | 0 => none
  | n + 1 => ((Text.lines source).map written)[n]?

/-- A line puts an instruction or a halt into memory, if nothing is wrong with it. -/
def PutsCode (source : String) (line : Nat) : Prop :=
  ∃ s, statement? source line = some s ∧ s.putsIn .code = true

/-- A line is an identifier with a colon and nothing else, and the next line that is not blank puts
    code. -/
structure LeadsToCode (source : String) (line next : Nat) : Prop where
  label : ∃ name, Token.isIdentifier name = true ∧ writtenLine? source line = some [name ++ ":"]
  lt : line < next
  blank : ∀ i, line < i → i < next → writtenLine? source i = some []
  code : PutsCode source next

/-- Some lines are labels alone, and the line behind them is code under a label. -/
structure LabelsCode (source : String) (line next : Nat) : Prop where
  lt : line < next
  labels : ∀ i, line ≤ i → i < next → statement? source i = some .label
  code : ∃ name item, statement? source next = some (.put (some (.label name)) item) ∧
    item.segment = .code

variable {source : String} {line next : Nat}

theorem LabelsCode.putsCode (h : LabelsCode source line next) : PutsCode source next := by
  obtain ⟨name, item, hs, hsegment⟩ := h.code
  exact ⟨_, hs, by simp [Stmt.putsIn, hsegment]⟩

theorem getElem?_lines_zero (source : String) : (lines source)[0]? = writtenLine? source 1 := by
  rw [lines, writtenLine?]
  cases (Text.lines source).map written <;> rfl

theorem getElem?_lines_succ {n : Nat} {ws : List String} (h : (lines source)[n]? = some ws) :
    (lines source)[n + 1]? = (writtenLine? source (n + 2)).map (handedOn ws ++ ·) :=
  getElem?_carry_succ h

theorem statement?_eq_map (source : String) (n : Nat) :
    statement? source (n + 1) = (lines source)[n]?.map Stmt.ofWords := by
  rw [statement?, statements, List.getElem?_map]

/-- A label alone is on the blank lines behind it, too. -/
theorem getElem?_lines_of_blank {name : String} (hname : Token.isIdentifier name = true) {n : Nat}
    (hfirst : (lines source)[n]? = some [name ++ ":"])
    (hblank : ∀ i, n + 1 < i → i < next → writtenLine? source i = some []) {i : Nat} (hi : n ≤ i)
    (hnext : i + 1 < next) : (lines source)[i]? = some [name ++ ":"] := by
  have hhanded : handedOn [name ++ ":"] = [name ++ ":"] :=
    handedOn_of_isLoneLabel (isLoneLabel_of_isIdentifier hname)
  induction i, hi using Nat.le_induction with
  | base => exact hfirst
  | succ i hi ih =>
      rw [getElem?_lines_succ (ih (by omega)), hblank (i + 2) (by omega) hnext, hhanded]
      rfl

/-- A label that nothing is carried to is carried over the blank lines to the code behind them. -/
theorem LeadsToCode.labelsCode {n : Nat} (h : LeadsToCode source (n + 1) next)
    (hfirst : (lines source)[n]? = writtenLine? source (n + 1)) :
    LabelsCode source (n + 1) next := by
  obtain ⟨⟨name, hname, hwritten⟩, hlt, hblank, s, hs, hcode⟩ := h
  have hcarried : ∀ i, n ≤ i → i + 1 < next → (lines source)[i]? = some [name ++ ":"] :=
    fun i => getElem?_lines_of_blank hname (hfirst.trans hwritten) hblank
  refine ⟨hlt, fun i hi hnext => ?_, ?_⟩
  · obtain ⟨i, rfl⟩ := Nat.exists_eq_add_one_of_ne_zero (show i ≠ 0 by omega)
    rw [statement?_eq_map, hcarried i (by omega) hnext, Option.map_some,
      Stmt.ofWords_loneLabel hname]
  · obtain ⟨k, rfl⟩ : ∃ k, next = k + 2 := ⟨next - 2, by omega⟩
    have hwords := hs
    rw [statement?_eq_map, getElem?_lines_succ (hcarried k (by omega) (by omega)),
      handedOn_of_isLoneLabel (isLoneLabel_of_isIdentifier hname),
      Option.map_map] at hwords
    obtain ⟨own, -, rfl⟩ := Option.map_eq_some_iff.1 hwords
    obtain ⟨item, hitem, hsegment⟩ := Stmt.exists_item_of_label hname hcode
    exact ⟨name, item, hs.trans (congrArg some hitem), hsegment⟩

/-- If every label alone leads to code as written, it labels code in the end. -/
theorem exists_labelsCode
    (h : ∀ line ws, writtenLine? source line = some ws → Stmt.ofWords ws = .label →
      ∃ next, LeadsToCode source line next) {n : Nat}
    (hlabel : statement? source (n + 1) = some .label) :
    ∃ next, LabelsCode source (n + 1) next := by
  rw [statement?_eq_map, Option.map_eq_some_iff] at hlabel
  obtain ⟨ws, hws, hlabel⟩ := hlabel
  induction n generalizing ws with
  | zero =>
      obtain ⟨next, hnext⟩ := h 1 ws (by rw [← getElem?_lines_zero, hws]) hlabel
      exact ⟨next, hnext.labelsCode (getElem?_lines_zero source)⟩
  | succ n ih =>
      have hn : n < (lines source).length := by
        have := (List.getElem?_eq_some_iff.1 hws).1
        omega
      have hbefore := List.getElem?_eq_getElem hn
      have hline := getElem?_lines_succ hbefore
      rw [hws] at hline
      obtain ⟨own, hown, heq⟩ := Option.map_eq_some_iff.1 hline.symm
      rcases handedOn_eq_nil_or (lines source)[n] with hnone | ⟨hhanded, hlone⟩
      · -- nothing is carried to the line, so it is a label alone as written
        rw [hnone, List.nil_append] at heq
        obtain rfl := heq
        obtain ⟨next, hnext⟩ := h (n + 2) own hown hlabel
        exact ⟨next, hnext.labelsCode (hws.trans hown.symm)⟩
      · -- the line is blank, and the label on it is that of the line before
        rw [hhanded] at heq
        obtain ⟨w, rfl⟩ := Stmt.exists_of_ofWords_eq_label hlabel
        have hsame : (lines source)[n] = [w] := by
          rcases List.append_eq_singleton_iff.1 heq with ⟨hnil, -⟩ | ⟨hw, -⟩
          · rw [hnil] at hlone
            exact absurd hlone (by simp [isLoneLabel])
          · exact hw
        rw [hsame] at hbefore
        obtain ⟨next, hlt, hlabels, name, item, hcode, hsegment⟩ := ih [w] hbefore hlabel
        refine ⟨next, Nat.lt_of_le_of_ne hlt ?_, fun i hi => hlabels i (by omega),
          name, item, hcode, hsegment⟩
        rintro rfl
        rw [statement?_eq_map, hws, Option.map_some, hlabel] at hcode
        exact absurd hcode (by simp)

end Source

/-! ## Cells of labels -/

/-- A label alone moves no cursor. -/
theorem Layout.cursors_step_label {before : Lookup} {lay : Layout} {line : Line}
    (h : line.stmt = .label) : (lay.step before line).2.cursors = lay.cursors := by
  simp only [step, h, Cursors.after]

theorem Pass.cursors_walk_take_of_labels (before : Lookup) (lay : Layout) (lines : List Line)
    {n k : Nat} (hnk : n ≤ k)
    (h : ∀ i, n ≤ i → i < k → ∀ line, lines[i]? = some line → line.stmt = .label) :
    (lay.walk before (lines.take k)).cursors = (lay.walk before (lines.take n)).cursors := by
  induction k, hnk using Nat.le_induction with
  | base => rfl
  | succ k hk ih =>
      rw [← ih fun i hi hik => h i hi (Nat.lt_succ_of_lt hik), walk_take_succ]
      cases hline : lines[k]? with
      | none => rfl
      | some line =>
          exact Layout.cursors_step_label (h k hk (Nat.lt_succ_self k) line hline)

namespace Source

/-- A label alone is found at the cell of the code that it labels. -/
theorem lineAddress?_of_labels {source : String} {n next : Nat}
    (h : LabelsCode source (n + 1) next) :
    (Pass.settled (program source)).symbols.lineAddress? (n + 1) =
      (Pass.settled (program source)).symbols.lineAddress? next := by
  obtain ⟨hlt, hlabels, name, item, hcode, hsegment⟩ := h
  obtain ⟨k, rfl⟩ := Nat.exists_eq_add_one_of_ne_zero (Nat.ne_zero_of_lt hlt)
  obtain ⟨lines, hrun, -, hlines⟩ := exists_settled_eq_run source
  obtain ⟨wide, hlabel⟩ := hlines n _ (hlabels (n + 1) (Nat.le_refl _) hlt)
  obtain ⟨wide', hput⟩ := hlines k _ hcode
  have hcursors := Pass.cursors_walk_take_of_labels
    (Pass.settled (program source)).symbols.address? {} lines
    (Nat.le_of_lt (Nat.lt_of_succ_lt_succ hlt)) fun i hi hik line hline => by
      obtain ⟨w, hi'⟩ := hlines i _ (hlabels (i + 1) (by omega) (by omega))
      rw [← Option.some.inj (hi'.symm.trans hline)]
  rw [lineAddress?_of_entry (Pass.getElem?_entries_of_eq_run hrun hlabel),
    lineAddress?_of_entry (Pass.getElem?_entries_of_eq_run hrun hput), Layout.step_fst,
    Layout.step_fst]
  rw [hcursors]
  cases item with
  | value v => exact absurd hsegment (by simp [Item.segment])
  | word w => rfl
  | instr mnemonic operand => rfl

end Source

/-! ## Cells that are written once -/

/-- If no cell is written twice, only one line writes to a cell. -/
theorem Pass.eq_of_writes {p : Pass} (honce : (p.object.writes.map (·.1)).Nodup) {n k : Nat}
    {e e' : Entry} (he : p.entries[n]? = some e) (he' : p.entries[k]? = some e') {a : Nat}
    {v v' : Cell} (hv : (a, v) ∈ e.writes) (hv' : (a, v') ∈ e'.writes) : n = k := by
  rw [object, List.map_flatMap, List.nodup_flatMap, List.pairwise_iff_getElem] at honce
  obtain ⟨hn, rfl⟩ := List.getElem?_eq_some_iff.1 he
  obtain ⟨hk, rfl⟩ := List.getElem?_eq_some_iff.1 he'
  have hmem : a ∈ p.entries[n].writes.map (·.1) := List.mem_map_of_mem hv
  have hmem' : a ∈ p.entries[k].writes.map (·.1) := List.mem_map_of_mem hv'
  rcases Nat.lt_trichotomy n k with hlt | heq | hlt
  · exact absurd hmem' (honce.2 n k hn hk hlt hmem)
  · exact heq
  · exact absurd hmem (honce.2 k n hk hn hlt hmem')

section Clean

variable {source : String} {o : Object} (hclean : assembleClean source = .ok o)

include hclean

/-- A line that puts code is found at a cell, and writes there. -/
theorem exists_write_of_putsCode {line : Nat} (hcode : Source.PutsCode source line) :
    ∃ n a e v, line = n + 1 ∧ o.symbols.lineAddress? line = some a ∧
      (Pass.settled (Source.program source)).entries[n]? = some e ∧ (a, v) ∈ e.writes := by
  obtain ⟨s, hs, hputs⟩ := hcode
  obtain ⟨place, item, rfl, hsegment⟩ := Stmt.exists_of_putsIn hputs
  obtain ⟨n, e, rfl, he, hput⟩ := Source.exists_entry_of_statement? hs
  obtain ⟨a, v, hsite, hhead, -⟩ := head?_writes_of_clean hclean he hput
  refine ⟨n, a, e, v, rfl, ?_, he, List.mem_of_mem_head? hhead⟩
  have hmapped : e.line.stmt.isMapped = true := by
    rw [hput]
    cases item with
    | value w => exact absurd hsegment (by simp [Item.segment])
    | word w => cases place <;> rfl
    | instr mnemonic operand => cases place <;> rfl
  rw [(assembleClean_eq_ok hclean).1]
  exact (Source.lineAddress?_of_entry he).trans ((if_pos hmapped).trans hsite)

/-- A line that is found at a cell writes there, or is a label alone. -/
theorem exists_write_or_label {line a : Nat} (h : o.symbols.lineAddress? line = some a) :
    ∃ n e, line = n + 1 ∧ (Pass.settled (Source.program source)).entries[n]? = some e ∧
      ((∃ v, (a, v) ∈ e.writes) ∨ e.line.stmt = .label) := by
  have hlines := Source.ascending_lines source
  have ho : o.symbols = (assemble source).object.symbols :=
    congrArg Object.symbols (assembleClean_eq_ok hclean).1
  rw [← ho] at hlines
  have hmem := (Symbols.lineAddress?_eq_some_iff hlines).1 h
  rw [ho, Source.symbols_assemble, Pass.lines_symbols] at hmem
  obtain ⟨e, hmem, hmapping⟩ := List.mem_filterMap.1 hmem
  obtain ⟨n, he⟩ := List.getElem?_of_mem hmem
  have hsite : e.site? = some a := by
    have hmapped := e.map_mapping?
    rw [hmapping] at hmapped
    exact (Option.ite_none_right_eq_some.1 hmapped.symm).2
  refine ⟨n, e, (Entry.number_of_mapping? hmapping).trans (Source.defects_settled he).1, he, ?_⟩
  by_cases hput : ∃ place item, e.line.stmt = .put place item
  · obtain ⟨place, item, hput⟩ := hput
    obtain ⟨b, v, hb, hhead, -⟩ := head?_writes_of_clean hclean he hput
    obtain rfl := Option.some.inj (hsite.symm.trans hb)
    exact .inl ⟨v, List.mem_of_mem_head? hhead⟩
  · obtain ⟨-, -, hnone⟩ := writes_of_not_put he fun place item h => hput ⟨place, item, h⟩
    refine .inr (Classical.byContradiction fun hlabel => ?_)
    exact absurd (hsite.symm.trans (hnone hlabel)) (by simp)

/-- No line after one that puts code is found at its cell. -/
theorem le_of_lineAddress? (honce : (o.writes.map (·.1)).Nodup)
    (hlabels : ∀ line ws, Source.writtenLine? source line = some ws → Stmt.ofWords ws = .label →
      ∃ next, Source.LeadsToCode source line next)
    {line a other : Nat} (hcode : Source.PutsCode source line)
    (haddress : o.symbols.lineAddress? line = some a)
    (hother : o.symbols.lineAddress? other = some a) : other ≤ line := by
  obtain ⟨ho, -⟩ := assembleClean_eq_ok hclean
  obtain ⟨n, b, e, v, rfl, hb, he, hwrite⟩ := exists_write_of_putsCode hclean hcode
  obtain rfl := Option.some.inj (haddress.symm.trans hb)
  have hsame : ∀ {k : Nat} {e' : Entry} {v' : Cell},
      (Pass.settled (Source.program source)).entries[k]? = some e' → (a, v') ∈ e'.writes →
        k = n := by
    intro k e' v' he' hwrite'
    rw [ho] at honce
    exact Pass.eq_of_writes honce he' he hwrite' hwrite
  obtain ⟨k, e', rfl, he', ⟨v', hwrite'⟩ | hlabel⟩ := exists_write_or_label hclean hother
  · exact Nat.le_of_eq (congrArg (· + 1) (hsame he' hwrite'))
  · -- the code that the label is carried to is at its cell, so it is the code of the line
    obtain ⟨next, hnext⟩ := Source.exists_labelsCode hlabels
      (hlabel ▸ Source.statement?_of_entry he')
    have hmoved : o.symbols.lineAddress? next = some a := by
      rw [ho] at hother ⊢
      exact (Source.lineAddress?_of_labels hnext).symm.trans hother
    obtain ⟨i, b, e'', v'', rfl, hb, he'', hwrite''⟩ :=
      exists_write_of_putsCode hclean hnext.putsCode
    obtain rfl := Option.some.inj (hmoved.symm.trans hb)
    have hi := hsame he'' hwrite''
    have hlt := hnext.lt
    omega

end Clean

/-- A line that is found again by its cell is the current one after the machine was started
    there. -/
theorem Machine.exists_startAtLine? {m : Machine} {line a : Nat}
    (haddress : m.symbols.lineAddress? line = some a) (hfound : m.symbols.lineAt? a = some line) :
    ∃ m', m.startAtLine? line = some (m', a) ∧ m'.currentLine? = some line := by
  refine ⟨Machine.rewind { m with start := a }, ?_, hfound⟩
  rw [startAtLine?, haddress]
  rfl

/-- The line of an instruction is found again by its cell, if no cell is written twice and every
    label that is alone on its line leads to code. So a machine that has loaded the text is at that
    line whenever it is at that cell, and after it was started from that line, until an operation
    sets other symbols. -/
theorem lineAt?_lineAddress?_of_clean {source : String} {o : Object}
    (hclean : assembleClean source = .ok o) (honce : (o.writes.map (·.1)).Nodup)
    (hlabels : ∀ line ws, Source.writtenLine? source line = some ws → Stmt.ofWords ws = .label →
      ∃ next, Source.LeadsToCode source line next)
    {line : Nat} (hcode : Source.PutsCode source line) :
    ∃ a, o.symbols.lineAddress? line = some a ∧ o.symbols.lineAt? a = some line ∧
      ∀ (seeding : Seeding) (before m r : Machine) (ops : List Operation), before.load o = .ok m →
        Machine.PerformsAll seeding m ops r → (∀ op ∈ ops, op.setsSymbols = false) →
        (r.core.pc = a → r.currentLine? = some line) ∧
        ∃ r', r.startAtLine? line = some (r', a) ∧ r'.currentLine? = some line := by
  obtain ⟨ho, -⟩ := assembleClean_eq_ok hclean
  obtain ⟨n, a, -, -, rfl, haddress, -, -⟩ := exists_write_of_putsCode hclean hcode
  have hlast : ∀ other, o.symbols.lineAddress? other = some a → other ≤ n + 1 :=
    fun other => le_of_lineAddress? hclean honce hlabels hcode haddress
  have hfound : o.symbols.lineAt? a = some (n + 1) := by
    rw [ho] at haddress hlast ⊢
    exact (Symbols.lineAt?_eq_some_iff (Source.ascending_lines source)).2 ⟨haddress, hlast⟩
  refine ⟨a, haddress, hfound, fun seeding before m r ops hload hops hsymbols => ?_⟩
  have hr : r.symbols = o.symbols := hops.symbols_eq_of_load hload hsymbols
  rw [← hr] at haddress hfound
  constructor
  · intro hpc
    rw [Machine.currentLine?, hpc, hfound]
  · exact Machine.exists_startAtLine? haddress hfound

/-- The label on the second line is carried over two blank lines to the halt on the fifth, so four
    lines are found at the cell of the halt. -/
theorem lineAt?_lineAddress?_of_carried :
    ∃ o, assembleClean "BRA END\nEND:\n\n; done\nHLT\n.data 50\nN: 5" = .ok o ∧
      (o.writes.map (·.1)).Nodup ∧
      [2, 3, 4, 5].map o.symbols.lineAddress? = [some 1, some 1, some 1, some 1] ∧
      o.symbols.lineAt? 1 = some 5 := by
  have hclean : assembleClean "BRA END\nEND:\n\n; done\nHLT\n.data 50\nN: 5" = .ok _ :=
    assembleClean_of_findings_eq_nil (by decide +kernel)
  have hcode : Source.PutsCode "BRA END\nEND:\n\n; done\nHLT\n.data 50\nN: 5" 5 :=
    ⟨.put (some (.label "END")) (.word "HLT"), by decide +kernel, by decide +kernel⟩
  have hlabels : ∀ line ws,
      Source.writtenLine? "BRA END\nEND:\n\n; done\nHLT\n.data 50\nN: 5" line = some ws →
        Stmt.ofWords ws = .label →
        ∃ next, Source.LeadsToCode "BRA END\nEND:\n\n; done\nHLT\n.data 50\nN: 5" line next := by
    intro line ws hws hlabel
    have hwritten :
        (Text.lines "BRA END\nEND:\n\n; done\nHLT\n.data 50\nN: 5").map Source.written =
          [["BRA", "END"], ["END:"], [], [], ["HLT"], [".data", "50"], ["N:", "5"]] := by
      decide +kernel
    cases line with
    | zero => exact absurd hws (by simp [Source.writtenLine?])
    | succ n =>
        rw [Source.writtenLine?, hwritten] at hws
        have honly : ∀ n < 7, [["BRA", "END"], ["END:"], [], [], ["HLT"], [".data", "50"],
            ["N:", "5"]][n]?.map Stmt.ofWords = some .label → n = 1 := by
          decide +kernel
        obtain rfl := honly n (List.getElem?_eq_some_iff.1 hws).1
          (by rw [hws, Option.map_some, hlabel])
        refine ⟨5, ⟨"END", by decide +kernel, by decide +kernel⟩, by decide, fun i hi hi' => ?_,
          hcode⟩
        obtain rfl | rfl : i = 3 ∨ i = 4 := by omega
        · decide +kernel
        · decide +kernel
  obtain ⟨a, ha, hfound, -⟩ :=
    lineAt?_lineAddress?_of_clean hclean (by decide +kernel) hlabels hcode
  have hcell : (some 1 : Option Nat) = some a := Eq.trans (by decide +kernel) ha
  obtain rfl := Option.some.inj hcell
  exact ⟨_, hclean, by decide +kernel, by decide +kernel, hfound⟩

end DecimalMachine
