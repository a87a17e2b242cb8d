import DecimalMachine.Machine.Basic
import DecimalMachine.Proofs.Assembly.Findings
import DecimalMachine.Proofs.Machine.Program

set_option autoImplicit false

/-! # The cells of lines

The symbols of a program say at which cell each line stands, so that a program can be started from
a line. In a text without defects a line that is written into memory is found at the first cell it
is written to, whatever kind of statement it is and however wide it became, but for one kind: a
value without a place is written, and its line is not found. Of the lines that are not written, a
label alone is found at the cell that it stands in front of. -/

namespace DecimalMachine

/-- Only a value without a place leaves no trace in the line map. -/
theorem Stmt.isMapped_eq_false_iff {s : Stmt} :
    s.isMapped = false ↔ ∃ v, s = .put none (.value v) := by
  unfold isMapped
  split <;> simp_all

/-- A statement that puts nothing anywhere emits no cell, and stands somewhere only if it is a
    label. -/
theorem Stmt.cells_emit_of_not_put {s : Stmt} (h : ∀ place item, s ≠ .put place item)
    (known : Lookup) (wide : Bool) (cur : Cursors) :
    (s.emit known wide).cells = [] ∧ s.isMapped = true ∧ (s ≠ .label → s.site? cur = none) := by
  cases s with
  | blank | overlong => exact ⟨rfl, rfl, fun _ => rfl⟩
  | label => exact ⟨rfl, rfl, fun hne => absurd rfl hne⟩
  | directive name argument =>
      refine ⟨?_, rfl, fun _ => rfl⟩
      simp only [emit]
      split
      · rfl
      · split <;> rfl
  | put place item => exact absurd rfl (h place item)

/-- A line without defects that puts something somewhere writes its first cell where it stands. -/
theorem head?_writes_of_clean {source : String} {o : Object}
    (hclean : assembleClean source = .ok o) {n : Nat} {e : Entry}
    (he : (Pass.settled (Source.program source)).entries[n]? = some e) {place : Option Place}
    {item : Item} (hput : e.line.stmt = .put place item) :
    ∃ a v, e.site? = some a ∧ e.writes.head? = some (a, v) ∧ ∀ w, item = .value w → w = v := by
  have hs : (Source.statements source)[n]? = some (.put place item) :=
    hput ▸ Source.statement?_of_entry he
  obtain ⟨_, cur, wide, hentry, -, hsite, hwrites, hdefects, -⟩ := entry_of_clean hclean hs
  obtain rfl := Option.some.inj (he.symm.trans hentry)
  obtain ⟨hsome, hemit⟩ := Stmt.isSome_site?_of_clean hdefects cur
  obtain ⟨a, ha⟩ := Option.isSome_iff_exists.1 hsome
  obtain ⟨v, vs, hcells⟩ := List.exists_cons_of_ne_nil (Stmt.cells_ne_nil_of_clean hdefects)
  refine ⟨a, v, hsite.trans ha, ?_, ?_⟩
  · rw [hwrites, hsite, ha, hcells]
    rfl
  · rintro w rfl
    rw [hemit] at hcells
    exact (List.cons.inj hcells).1

/-- A line that puts nothing anywhere writes nothing, and stands somewhere only if it is a label
    alone. -/
theorem writes_of_not_put {source : String} {n : Nat} {e : Entry}
    (he : (Pass.settled (Source.program source)).entries[n]? = some e)
    (hput : ∀ place item, e.line.stmt ≠ .put place item) :
    e.writes = [] ∧ e.line.stmt.isMapped = true ∧ (e.line.stmt ≠ .label → e.site? = none) := by
  obtain ⟨s, hstmt⟩ : ∃ s, e.line.stmt = s := ⟨_, rfl⟩
  have hs : Source.statement? source (n + 1) = some s :=
    hstmt ▸ Source.statement?_of_entry he
  rw [hstmt] at hput ⊢
  obtain ⟨lay, wide, hentry, -⟩ := Source.exists_step_settled hs
  obtain rfl := Option.some.inj (he.symm.trans hentry)
  obtain ⟨hcells, hmapped, hsite⟩ := Stmt.cells_emit_of_not_put hput
    (lay.seen (Pass.settled (Source.program source)).symbols.address? ⟨n + 1, s, wide⟩) wide
    lay.cursors
  rw [Layout.step_fst, Layout.emission, hcells]
  exact ⟨rfl, hmapped, hsite⟩

/-- In a text without defects a line that is written into memory is found at the first cell it is
    written to, and a program can be started there, unless the line is a value without a place. A
    line that is not written is not found, unless it is a label alone. -/
theorem lineAddress?_of_clean {source : String} {o : Object} (hclean : assembleClean source = .ok o)
    {n : Nat} {e : Entry} (he : (Pass.settled (Source.program source)).entries[n]? = some e) :
    (∀ a v, e.writes.head? = some (a, v) →
      o.symbols.lineAddress? (n + 1) =
          (if e.line.stmt = .put none (.value v) then none else some a) ∧
        ∀ m : Machine, m.symbols = o.symbols →
          (m.startAtLine? (n + 1)).map (fun r => (r.1.core.pc, r.2)) =
            if e.line.stmt = .put none (.value v) then none else some (a, a)) ∧
    (e.writes = [] →
      o.symbols.lineAddress? (n + 1) = if e.line.stmt = .label then e.site? else none) := by
  have hline : o.symbols.lineAddress? (n + 1) = if e.line.stmt.isMapped then e.site? else none := by
    rw [(assembleClean_eq_ok hclean).1]
    exact Source.lineAddress?_of_entry he
  by_cases hput : ∃ place item, e.line.stmt = .put place item
  · obtain ⟨place, item, hput⟩ := hput
    obtain ⟨a, v, hsite, hhead, hvalue⟩ := head?_writes_of_clean hclean he hput
    have hfound : o.symbols.lineAddress? (n + 1) =
        if e.line.stmt = .put none (.value v) then none else some a := by
      rw [hline, hsite]
      cases hmapped : e.line.stmt.isMapped with
      | true =>
          rw [if_pos rfl, if_neg]
          intro hbare
          rw [Stmt.isMapped_eq_false_iff.2 ⟨v, hbare⟩] at hmapped
          exact Bool.false_ne_true hmapped
      | false =>
          obtain ⟨w, hbare⟩ := Stmt.isMapped_eq_false_iff.1 hmapped
          obtain ⟨-, hitem⟩ := Stmt.put.inj (hput.symm.trans hbare)
          rw [if_neg Bool.false_ne_true, if_pos (hvalue w hitem ▸ hbare)]
    refine ⟨fun a' v' hhead' => ?_, fun hnone => absurd hhead (by simp [hnone])⟩
    obtain ⟨rfl, rfl⟩ := Prod.mk.inj (Option.some.inj (hhead.symm.trans hhead'))
    refine ⟨hfound, fun m hm => ?_⟩
    rw [Machine.startAtLine?, hm, hfound]
    split <;> rfl
  · obtain ⟨hnone, hmapped, hsite⟩ :=
      writes_of_not_put he fun place item h => hput ⟨place, item, h⟩
    refine ⟨fun a v hhead => absurd hhead (by simp [hnone]), fun _ => ?_⟩
    rw [hline, if_pos hmapped]
    split
    · rfl
    · rename_i hne
      exact hsite hne

/-- The second line becomes wide only when the label on the last one is known; it is found at the
    first of its two cells. -/
theorem lineAddress?_of_clean_wide :
    ∃ o, assembleClean ".code 10\nINC N\n.data 100\nN: 5" = .ok o ∧
      o.writes = [(10, 9000), (11, 100), (100, 5)] ∧ o.symbols.lineAddress? 2 = some 10 := by
  have hclean : assembleClean ".code 10\nINC N\n.data 100\nN: 5" = .ok _ :=
    assembleClean_of_findings_eq_nil (by decide +kernel)
  obtain ⟨e, he, hstmt, hhead⟩ : ∃ e : Entry,
      (Pass.settled (Source.program ".code 10\nINC N\n.data 100\nN: 5")).entries[1]? = some e ∧
      e.line.stmt = .put none (.instr "INC" "N") ∧ e.writes.head? = some (10, 9000) :=
    ⟨_, rfl, by decide +kernel, by decide +kernel⟩
  have haddress := ((lineAddress?_of_clean hclean he).1 10 9000 hhead).1
  rw [hstmt, if_neg (by decide)] at haddress
  exact ⟨_, hclean, by decide +kernel, haddress⟩

/-- A value without a place is written, and its line is not found. -/
theorem lineAddress?_of_bare_value :
    ∃ o e, assembleClean "5" = .ok o ∧
      (Pass.settled (Source.program "5")).entries[0]? = some e ∧
      e.writes.head? = some (0, 5) ∧ o.symbols.lineAddress? 1 ≠ some 0 := by
  have hclean : assembleClean "5" = .ok _ :=
    assembleClean_of_findings_eq_nil (by decide +kernel)
  exact ⟨_, _, hclean, rfl, by decide +kernel, by decide +kernel⟩

end DecimalMachine
