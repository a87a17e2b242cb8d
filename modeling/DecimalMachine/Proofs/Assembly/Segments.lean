import DecimalMachine.Proofs.Assembly.Interleaving
import DecimalMachine.Proofs.Assembly.LineMap
import Mathlib.Data.List.Nodup

set_option autoImplicit false

/-! # Segments without gaps

Where no line names its own cell and no directive comes too late, code and data each fill a row of
cells: the first of them is the cell of the last directive, and every line goes on where the line
before it of the same kind ended. That holds of every step of every pass, because a cursor moves by
the cells that were written and by nothing else (`Layout.next_step_of_clean`), so which instructions
were widened does not matter. It follows that a cell is written twice only if the two rows meet. -/

namespace DecimalMachine

/-! ## Statements of a segment -/

namespace Stmt

/-- Whether a statement puts something into data or into code. -/
def putsIn (d : Directive) : Stmt → Bool
  | put _ item => item.segment == d
  | _ => false

/-- Whether a statement is a directive for data or for code. -/
def directs (d : Directive) : Stmt → Bool
  | directive name _ => Directive.ofName? name == some d
  | _ => false

/-- The cell at which a directive has data or code go on, if it names one. -/
def target? (d : Directive) : Stmt → Option Nat
  | directive name argument =>
      if Directive.ofName? name = some d then Token.address? argument else none
  | _ => none

/-- Whether a statement puts an item at a cell that it names. -/
def namesCell : Stmt → Bool
  | put (some (.cell _)) _ => true
  | _ => false

variable {s : Stmt} {d : Directive}

theorem target?_of_not_directs (h : s.directs d = false) : s.target? d = none := by
  cases s with
  | directive name argument =>
      have hname : Directive.ofName? name ≠ some d := by simpa [directs] using h
      exact if_neg hname
  | _ => rfl

theorem exists_of_putsIn (h : s.putsIn d = true) : ∃ place item, s = put place item ∧
    item.segment = d := by
  cases s with
  | put place item => exact ⟨place, item, rfl, by simpa [putsIn] using h⟩
  | _ => simp [putsIn] at h

theorem putsIn_eq_false_of_ne {e : Directive} (h : s.putsIn d = true) (hne : e ≠ d) :
    s.putsIn e = false := by
  obtain ⟨place, item, rfl, rfl⟩ := exists_of_putsIn h
  simpa [putsIn] using hne.symm

theorem exists_putsIn (place : Option Place) (item : Item) :
    ∃ d, (put place item).putsIn d = true := by
  exact ⟨item.segment, by simp [putsIn]⟩

end Stmt

namespace Cursors

/-- The next free cell of data or of code. -/
def next (cur : Cursors) : Directive → Nat
  | .data => cur.data
  | .code => cur.code

theorem next_eq_of_part_eq {cur cur' : Cursors} {d : Directive} (h : cur.part d = cur'.part d) :
    cur.next d = cur'.next d := by
  cases d with
  | data => exact (Prod.mk.inj h).1
  | code => exact (Prod.mk.inj h).1

/-- An item that stands somewhere without naming the cell stands at the next free one. -/
theorem site?_eq_next {place : Option Place} {item : Item} {cur : Cursors}
    (hplace : (Stmt.put place item).namesCell = false)
    (hsite : ((Stmt.put place item).site? cur).isSome) :
    (Stmt.put place item).site? cur = some (cur.next item.segment) := by
  rcases place with _ | ⟨name⟩ | ⟨w⟩
  · cases item with
    | value v => rfl
    | instr mnemonic operand => rfl
    | word w =>
        simp only [Stmt.site?] at hsite ⊢
        split at hsite
        · rename_i hw
          rw [if_pos hw]
          rfl
        · exact absurd hsite (by simp)
  · cases item <;> rfl
  · simp [Stmt.namesCell] at hplace

/-- The cursor of a segment moves behind what an item of it wrote. -/
theorem next_after_put {place : Option Place} {item : Item} {cur : Cursors} {a count : Nat}
    (hsite : (Stmt.put place item).site? cur = some a) (hcount : count ≠ 0) :
    (cur.after (.put place item) count).next item.segment = a + count := by
  simp only [after, hsite]
  cases item with
  | value v => rfl
  | instr mnemonic operand => rfl
  | word w =>
      rw [afterItem, if_neg hcount]
      rfl

/-- A statement that puts nothing into a segment moves its cursor to the target that it has for it,
    and not at all if it has none. -/
theorem next_after_of_not_putsIn {s : Stmt} {d : Directive} (h : s.putsIn d = false)
    (cur : Cursors) (count : Nat) :
    (cur.after s count).next d = (s.target? d).getD (cur.next d) := by
  cases s with
  | directive name argument =>
      simp only [after, afterDirective, Stmt.target?]
      cases Directive.ofName? name with
      | none => rfl
      | some e =>
          cases Token.address? argument with
          | none => cases e <;> cases d <;> rfl
          | some a => cases e <;> cases d <;> rfl
  | put place item =>
      have hne : d ≠ item.segment := by
        rintro rfl
        simp [Stmt.putsIn] at h
      exact next_eq_of_part_eq (part_after_of_ne rfl hne count)
  | _ => rfl

/-- The start of the program is where code was last directed to. -/
theorem start_after (cur : Cursors) (s : Stmt) (count : Nat) :
    (cur.after s count).start = (s.target? .code).getD cur.start := by
  cases s with
  | directive name argument =>
      simp only [after, afterDirective, Stmt.target?]
      cases Directive.ofName? name with
      | none => rfl
      | some e =>
          cases Token.address? argument with
          | none => cases e <;> rfl
          | some a => cases e <;> rfl
  | put place item =>
      unfold after
      cases (Stmt.put place item).site? cur with
      | none => rfl
      | some a =>
          cases item with
          | value v => rfl
          | instr mnemonic operand => rfl
          | word w =>
              simp only [afterItem]
              split <;> rfl
  | _ => rfl

end Cursors

/-! ## Lines of a segment -/

/-- The cell that the last directive for data or for code names. -/
def Directive.lastTarget? (d : Directive) (ss : List Stmt) : Option Nat :=
  ss.reverse.findSome? (·.target? d)

theorem Directive.lastTarget?_cons (d : Directive) (s : Stmt) (ss : List Stmt) :
    d.lastTarget? (s :: ss) = (d.lastTarget? ss).or (s.target? d) := by
  simp [lastTarget?, List.findSome?_append]

theorem Directive.lastTarget?_eq_none {d : Directive} {ss : List Stmt}
    (h : ∀ s ∈ ss, s.directs d = false) : d.lastTarget? ss = none := by
  refine List.findSome?_eq_none_iff.2 fun s hs => ?_
  exact Stmt.target?_of_not_directs (h s (List.mem_reverse.1 hs))

namespace Layout

variable {before : Lookup} {lay : Layout} {line : Line} {d : Directive}

/-- A line without defects that puts something into a segment writes from its next free cell on,
    and leaves the cursor behind what it wrote. -/
theorem next_step_of_clean (hclean : (lay.step before line).1.defects = [])
    (hcell : line.stmt.namesCell = false) (hputs : line.stmt.putsIn d = true) :
    (lay.step before line).1.writes.map (·.1) =
        List.range' (lay.cursors.next d) (lay.step before line).1.writes.length ∧
      (lay.step before line).2.cursors.next d =
        lay.cursors.next d + (lay.step before line).1.writes.length := by
  obtain ⟨number, stmt, wide⟩ := line
  obtain ⟨place, item, rfl, rfl⟩ := Stmt.exists_of_putsIn hputs
  rw [step_fst] at hclean
  have hdefects := (List.append_eq_nil_iff.1 hclean).2
  have hsite := Cursors.site?_eq_next hcell (Stmt.isSome_site?_of_clean hdefects lay.cursors).1
  have hcount : (lay.emission before ⟨number, .put place item, wide⟩).cells.length ≠ 0 := by
    rw [ne_eq, List.length_eq_zero_iff]
    exact Stmt.cells_ne_nil_of_clean hdefects
  rw [step_fst, hsite]
  simp only [List.map_map, List.length_map, List.length_zipIdx, Option.getD_some]
  exact ⟨List.zipIdx_map_snd _ _, Cursors.next_after_put hsite hcount⟩

theorem next_step_of_not_putsIn (h : line.stmt.putsIn d = false) :
    (lay.step before line).2.cursors.next d = (line.stmt.target? d).getD (lay.cursors.next d) := by
  exact Cursors.next_after_of_not_putsIn h _ _

theorem start_walk (before : Lookup) (lay : Layout) (lines : List Line) :
    (lay.walk before lines).cursors.start =
      (Directive.code.lastTarget? (lines.map (·.stmt))).getD lay.cursors.start := by
  induction lines generalizing lay with
  | nil => rfl
  | cons line rest ih =>
      have hstep : (lay.step before line).2.cursors.start =
          (line.stmt.target? .code).getD lay.cursors.start :=
        Cursors.start_after _ _ _
      rw [walk_cons, ih, hstep, List.map_cons, Directive.lastTarget?_cons]
      cases Directive.code.lastTarget? (rest.map (·.stmt)) <;> rfl

end Layout

namespace Pass

/-- What the lines of data or of code write, in the order of the lines. -/
def writesIn (p : Pass) (d : Directive) : List (Nat × Cell) :=
  (p.entries.filter (·.line.stmt.putsIn d)).flatMap (·.writes)

variable (before : Lookup) {lines : List Line} {d : Directive}

/-- Lines without defects fill the cells of a segment one after the other, from the target of the
    last directive on. -/
theorem map_writesIn_runFrom (lay : Layout)
    (hclean : ∀ e ∈ (runFrom before lay lines).entries, e.defects = [])
    (hcell : ∀ line ∈ lines, line.stmt.namesCell = false)
    (horder : (lines.map (·.stmt)).Pairwise fun s t => s.putsIn d = true → t.directs d = false) :
    ((runFrom before lay lines).writesIn d).map (·.1) =
      List.range' ((d.lastTarget? (lines.map (·.stmt))).getD (lay.cursors.next d))
        ((runFrom before lay lines).writesIn d).length := by
  induction lines generalizing lay with
  | nil => rfl
  | cons line rest ih =>
      have hhead := hclean _ List.mem_cons_self
      have hrest := ih (lay.step before line).2 (fun e he => hclean e (List.mem_cons_of_mem _ he))
        (fun l hl => hcell l (List.mem_cons_of_mem _ hl)) (List.pairwise_cons.1 horder).2
      rw [List.map_cons, Directive.lastTarget?_cons]
      cases hputs : line.stmt.putsIn d with
      | true =>
          -- the segment has begun, so no directive for it comes any more
          have hnone : d.lastTarget? (rest.map (·.stmt)) = none :=
            Directive.lastTarget?_eq_none fun s hs => (List.pairwise_cons.1 horder).1 s hs hputs
          have htarget : line.stmt.target? d = none := by
            obtain ⟨place, item, hstmt, -⟩ := Stmt.exists_of_putsIn hputs
            rw [hstmt]
            rfl
          obtain ⟨hwrites, hnext⟩ :=
            Layout.next_step_of_clean hhead (hcell line List.mem_cons_self) hputs
          have hcons : (runFrom before lay (line :: rest)).writesIn d =
              (lay.step before line).1.writes ++
                (runFrom before (lay.step before line).2 rest).writesIn d := by
            simp [writesIn, runFrom, Layout.step_fst, hputs]
          rw [hnone, Option.getD_none, hnext] at hrest
          rw [hcons, List.map_append, hwrites, hrest, hnone, htarget, List.length_append]
          exact List.range'_append_1
      | false =>
          have hcons : (runFrom before lay (line :: rest)).writesIn d =
              (runFrom before (lay.step before line).2 rest).writesIn d := by
            simp [writesIn, runFrom, Layout.step_fst, hputs]
          rw [Layout.next_step_of_not_putsIn hputs] at hrest
          rw [hcons, hrest]
          cases d.lastTarget? (rest.map (·.stmt)) <;> rfl

/-- What entries write is what the lines of code and of data among them write, and nothing else. -/
theorem perm_flatMap_writes {es : List Entry}
    (h : ∀ e ∈ es, (∀ d, e.line.stmt.putsIn d = false) → e.writes = []) :
    (es.flatMap (·.writes)).Perm
      ((es.filter (·.line.stmt.putsIn .code)).flatMap (·.writes) ++
        (es.filter (·.line.stmt.putsIn .data)).flatMap (·.writes)) := by
  induction es with
  | nil => exact .refl _
  | cons e es ih =>
      have hrest := (ih fun e' he' => h e' (List.mem_cons_of_mem _ he')).append_left e.writes
      rw [List.flatMap_cons]
      cases hcode : e.line.stmt.putsIn .code with
      | true =>
          have hdata : e.line.stmt.putsIn .data = false :=
            Stmt.putsIn_eq_false_of_ne hcode (by decide)
          simpa [hcode, hdata] using hrest
      | false =>
          cases hdata : e.line.stmt.putsIn .data with
          | true =>
              simpa [hcode, hdata] using hrest.trans (List.perm_append_comm_assoc _ _ _)
          | false =>
              have hnone : e.writes = [] := h e List.mem_cons_self fun d => by
                cases d <;> assumption
              simpa [hcode, hdata, hnone] using hrest

end Pass

/-! ## Source texts -/

namespace Source

/-- The cell that data or code starts at: the last directive for it says so, and otherwise it is the
    first cell of all. -/
def origin (source : String) (d : Directive) : Nat :=
  (d.lastTarget? (statements source)).getD 0

/-- What the lines of data or of code are written to memory as, in the order of the lines. -/
def writesIn (source : String) (d : Directive) : List (Nat × Cell) :=
  (Pass.settled (program source)).writesIn d

/-- Data and code are each in one piece: no item is put at a cell that its line names, and no
    directive for a segment comes after something was put into it. -/
structure IsSegmented (source : String) : Prop where
  namesCell : ∀ s ∈ statements source, s.namesCell = false
  directs : ∀ d, (statements source).Pairwise fun s t => s.putsIn d = true → t.directs d = false

/-- A program starts at the origin of its code, whatever the text is. -/
theorem start_settled (source : String) :
    (Pass.settled (program source)).object.start = origin source .code := by
  obtain ⟨lines, hrun, hstmts, -⟩ := exists_settled_eq_run source
  generalize Pass.settled (program source) = p at hrun ⊢
  have hwalk := Layout.start_walk p.symbols.address? {} lines
  rw [← Pass.layout_runFrom, hstmts] at hwalk
  exact (congrArg (fun q : Pass => q.layout.cursors.start) hrun).trans hwalk

/-- Everything that is written is written by lines of code or of data, whatever the text is. -/
theorem perm_writesIn (source : String) :
    (Pass.settled (program source)).object.writes.Perm
      (writesIn source .code ++ writesIn source .data) := by
  have hnothing : ∀ e ∈ (Pass.settled (program source)).entries,
      (∀ d, e.line.stmt.putsIn d = false) → e.writes = [] := by
    intro e he hnone
    obtain ⟨n, hn⟩ := List.getElem?_of_mem he
    refine (writes_of_not_put hn fun place item hput => ?_).1
    obtain ⟨d, hd⟩ := Stmt.exists_putsIn place item
    exact Bool.false_ne_true ((hnone d).symm.trans (hput ▸ hd))
  rw [writesIn, writesIn]
  generalize Pass.settled (program source) = p at hnothing ⊢
  exact Pass.perm_flatMap_writes hnothing

/-- Code or data in one piece fills the cells from its origin on, if nothing is wrong with it. -/
theorem map_writesIn {source : String}
    (hclean : ∀ e ∈ (Pass.settled (program source)).entries, e.defects = [])
    (h : IsSegmented source) (d : Directive) :
    (writesIn source d).map (·.1) =
      List.range' (origin source d) (writesIn source d).length := by
  obtain ⟨lines, hrun, hstmts, -⟩ := exists_settled_eq_run source
  have hcell : ∀ line ∈ lines, line.stmt.namesCell = false := fun line hline =>
    h.namesCell _ (hstmts ▸ List.mem_map_of_mem hline)
  rw [writesIn]
  generalize Pass.settled (program source) = p at hclean hrun ⊢
  rw [hrun] at hclean
  have hrow := Pass.map_writesIn_runFrom (d := d) _ {} hclean hcell (hstmts ▸ h.directs d)
  rw [hrun, origin, ← hstmts]
  cases d <;> exact hrow

end Source

/-- The code of a text without defects fills the cells from the start of the program on, and its
    data those from the origin of the data on, each line behind the one before it of its kind,
    whatever was widened to reach the labels. So no cell is written twice unless these two rows of
    cells meet. -/
theorem writesIn_of_segmented {source : String} {o : Object}
    (hclean : assembleClean source = .ok o) (hsegmented : Source.IsSegmented source) :
    (Source.writesIn source .code).map (·.1) =
        List.range' o.start (Source.writesIn source .code).length ∧
      (Source.writesIn source .data).map (·.1) =
        List.range' (Source.origin source .data) (Source.writesIn source .data).length ∧
      o.start = Source.origin source .code ∧
      o.writes.Perm (Source.writesIn source .code ++ Source.writesIn source .data) ∧
      ((o.writes.map (·.1)).Nodup ↔
        (List.range' o.start (Source.writesIn source .code).length).Disjoint
          (List.range' (Source.origin source .data) (Source.writesIn source .data).length)) := by
  obtain ⟨ho, hdefects⟩ := assembleClean_eq_ok hclean
  have hrow := Source.map_writesIn hdefects hsegmented
  have hstart : o.start = Source.origin source .code := ho ▸ Source.start_settled source
  have hperm : o.writes.Perm (Source.writesIn source .code ++ Source.writesIn source .data) :=
    ho ▸ Source.perm_writesIn source
  rw [hstart]
  refine ⟨hrow .code, hrow .data, rfl, hperm, (hperm.map (·.1)).nodup_iff.trans ?_⟩
  rw [List.map_append, hrow, hrow, List.nodup_append']
  exact ⟨fun h => h.2.2, fun h => ⟨List.nodup_range', List.nodup_range', h⟩⟩

/-- The label `N` comes behind two values, too far for a packed `INC`, which takes two cells. -/
theorem writesIn_of_segmented_widened :
    ∃ o, assembleClean ".data 98\n.code 10\nINC N\n7\nHLT\n8\nN: 5\nBRA 10" = .ok o ∧
      o.writes = [(10, 9000), (11, 100), (98, 7), (12, 0), (99, 8), (100, 5), (13, 5010)] ∧
      (o.writes.map (·.1)).Nodup := by
  have hclean : assembleClean ".data 98\n.code 10\nINC N\n7\nHLT\n8\nN: 5\nBRA 10" = .ok _ :=
    assembleClean_of_findings_eq_nil (by decide +kernel)
  have hsegmented :
      Source.IsSegmented ".data 98\n.code 10\nINC N\n7\nHLT\n8\nN: 5\nBRA 10" :=
    ⟨by decide +kernel, fun d => by cases d <;> decide +kernel⟩
  obtain ⟨-, -, -, -, honce⟩ := writesIn_of_segmented hclean hsegmented
  have happart : ∀ a ∈ List.range' 10 4, a ∉ List.range' 98 3 := by decide
  exact ⟨_, hclean, by decide +kernel, honce.2 fun a ha ha' => happart a ha ha'⟩

end DecimalMachine
