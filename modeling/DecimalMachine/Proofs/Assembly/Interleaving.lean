import DecimalMachine.Proofs.Assembly.Identifier
import DecimalMachine.Proofs.Assembly.Plan
import DecimalMachine.Proofs.Assembly.Widths
import DecimalMachine.Proofs.Machine.Program
import DecimalMachine.Proofs.Source.Line

set_option autoImplicit false

/-! # Interleaving code and data

Code and data each have a cursor of their own, so a line of the one kind does not notice a line of
the other that comes before it (`Cursors.past_past`). What it does notice is which labels are
defined before it; but where every label is defined once, that does not matter in a solution, which
goes by plan. So two neighbouring lines of code and data can change places in every solution
(`Lookup.Solves.exchange`). What is assembled is the least solution, and so it is the same in
either order (`assemble_swap`). -/

namespace DecimalMachine

/-! ## Segments -/

/-- Whether an item is data or code. -/
def Item.segment : Item → Directive
  | value _ => .data
  | word _ => .code
  | instr _ _ => .code

/-- Whether a statement belongs to data or to code: it puts something there, or moves the cursor
    of it. -/
def Stmt.segment? : Stmt → Option Directive
  | directive name _ => Directive.ofName? name
  | put _ item => some item.segment
  | _ => none

namespace Cursors

/-- The part of the cursors that belongs to data or to code; the start of the program is where
    code was last directed to. -/
def part (cur : Cursors) : Directive → Nat × Nat
  | .data => (cur.data, 0)
  | .code => (cur.code, cur.start)

variable {cur cur' : Cursors} {s t : Stmt} {d e : Directive}

theorem ext_part (h : ∀ d, cur.part d = cur'.part d) : cur = cur' := by
  obtain ⟨code, data, start⟩ := cur
  obtain ⟨code', data', start'⟩ := cur'
  obtain ⟨rfl, -⟩ := Prod.mk.inj (h .data)
  obtain ⟨rfl, rfl⟩ := Prod.mk.inj (h .code)
  rfl

/-- A statement stands at the cursor of its segment, or at a cell that it names. -/
theorem site?_congr (hs : s.segment? = some d) (h : cur.part d = cur'.part d) :
    s.site? cur = s.site? cur' := by
  cases s with
  | directive name argument => rfl
  | put place item =>
      obtain rfl := Option.some.inj hs
      cases item with
      | value v =>
          obtain ⟨hdata, -⟩ := Prod.mk.inj h
          rcases place with _ | _ | _ <;> simp [Stmt.site?, hdata]
      | word w | instr mnemonic operand =>
          obtain ⟨hcode, -⟩ := Prod.mk.inj h
          rcases place with _ | _ | _ <;> simp [Stmt.site?, hcode]
  | _ => exact absurd hs (by simp [Stmt.segment?])

theorem part_of_data_ne (hne : e ≠ .data) (a : Nat) :
    part { cur with data := a } e = cur.part e := by
  cases e with
  | data => exact absurd rfl hne
  | code => rfl

theorem part_of_code_ne (hne : e ≠ .code) (a b : Nat) :
    part { cur with code := a, start := b } e = cur.part e := by
  cases e with
  | data => rfl
  | code => exact absurd rfl hne

/-- A statement leaves the other segment alone. -/
theorem part_after_of_ne (hs : s.segment? = some d) (hne : e ≠ d) (n : Nat) :
    (cur.after s n).part e = cur.part e := by
  cases s with
  | directive name argument =>
      simp only [Stmt.segment?] at hs
      simp only [after, afterDirective, hs]
      cases Token.address? argument with
      | none => cases d <;> rfl
      | some a =>
          cases d with
          | data => exact part_of_data_ne hne a
          | code => exact part_of_code_ne hne a a
  | put place item =>
      obtain rfl := Option.some.inj hs
      unfold after
      cases (Stmt.put place item).site? cur with
      | none => rfl
      | some a =>
          cases item with
          | value v => exact part_of_data_ne hne _
          | word w =>
              simp only [afterItem]
              split
              · rfl
              · exact part_of_code_ne hne _ _
          | instr mnemonic operand => exact part_of_code_ne hne _ _
  | _ => exact absurd hs (by simp [Stmt.segment?])

/-- What a statement does to its segment does not depend on the other one. -/
theorem part_after_congr (hs : s.segment? = some d) (h : cur.part d = cur'.part d) (n : Nat) :
    (cur.after s n).part d = (cur'.after s n).part d := by
  have hsite := site?_congr hs h
  cases s with
  | directive name argument =>
      simp only [Stmt.segment?] at hs
      simp only [after, afterDirective, hs]
      cases Token.address? argument with
      | none => cases d <;> exact h
      | some a => cases d <;> rfl
  | put place item =>
      obtain rfl := Option.some.inj hs
      unfold after
      rw [hsite]
      cases (Stmt.put place item).site? cur' with
      | none => exact h
      | some a =>
          cases item with
          | value v => rfl
          | word w =>
              simp only [afterItem]
              split
              · exact h
              · exact congrArg (a + n, ·) (Prod.mk.inj h).2
          | instr mnemonic operand => exact congrArg (a + n, ·) (Prod.mk.inj h).2
  | _ => exact absurd hs (by simp [Stmt.segment?])

theorem site?_after (hs : s.segment? = some d) (ht : t.segment? = some e) (hne : d ≠ e) (n : Nat) :
    t.site? (cur.after s n) = t.site? cur := by
  exact site?_congr ht (part_after_of_ne hs hne.symm n)

theorem eq_or_eq_of_ne (hne : d ≠ e) (c : Directive) : c = d ∨ c = e := by
  cases c <;> cases d <;> cases e <;> simp at hne ⊢

/-- Statements of different segments move the cursors in either order. -/
theorem after_after (hs : s.segment? = some d) (ht : t.segment? = some e) (hne : d ≠ e)
    (n m : Nat) : (cur.after s n).after t m = (cur.after t m).after s n := by
  refine ext_part ?_
  intro c
  rcases eq_or_eq_of_ne hne c with rfl | rfl
  · rw [part_after_of_ne ht hne]
    exact part_after_congr hs (part_after_of_ne ht hne m).symm n
  · rw [part_after_of_ne hs hne.symm]
    exact part_after_congr ht (part_after_of_ne hs hne.symm n) m

variable {k : Lookup}

theorem placed_past (hs : s.segment? = some d) (ht : t.segment? = some e) (hne : d ≠ e) :
    t.placed k (cur.past k s) = t.placed k cur := by
  unfold Stmt.placed past
  rw [site?_after hs ht hne]

theorem past_past (hs : s.segment? = some d) (ht : t.segment? = some e) (hne : d ≠ e) :
    (cur.past k s).past k t = (cur.past k t).past k s := by
  exact after_after hs ht hne _ _

end Cursors

/-! ## Exchanges -/

/-- Statements that differ in the order of two neighbouring ones, of which one belongs to code and
    the other to data. -/
inductive Exchanges : List Stmt → List Stmt → Prop
  | intro {s t : Stmt} {d e : Directive} (hs : s.segment? = some d) (ht : t.segment? = some e)
      (hne : d ≠ e) (before after : List Stmt) :
      Exchanges (before ++ s :: t :: after) (before ++ t :: s :: after)

namespace Exchanges

variable {ss ss' : List Stmt}

theorem symm (h : Exchanges ss ss') : Exchanges ss' ss := by
  obtain ⟨hs, ht, hne, before, after⟩ := h
  exact ⟨ht, hs, hne.symm, before, after⟩

theorem perm (h : Exchanges ss ss') : ss.Perm ss' := by
  obtain ⟨-, -, -, before, after⟩ := h
  exact (List.Perm.swap _ _ after).append_left before

/-- In the plan nothing is exchanged but these two. -/
theorem plan (h : Exchanges ss ss') (k : Lookup) (cur : Cursors) :
    cur.through k ss = cur.through k ss' ∧
      ∃ ps u v qs, cur.plan k ss = ps ++ u :: v :: qs ∧ cur.plan k ss' = ps ++ v :: u :: qs := by
  obtain @⟨s, t, d, e, hs, ht, hne, before, after⟩ := h
  constructor
  · simp only [Cursors.through, List.foldl_append, List.foldl_cons]
    rw [Cursors.past_past hs ht hne]
  · refine ⟨cur.plan k before, s.placed k (cur.through k before),
      t.placed k (cur.through k before),
      (((cur.through k before).past k s).past k t).plan k after, ?_, ?_⟩
    · rw [Cursors.plan_append, Cursors.plan, Cursors.plan, Cursors.placed_past hs ht hne]
    · rw [Cursors.plan_append, Cursors.plan, Cursors.plan, Cursors.placed_past ht hs hne.symm,
        Cursors.past_past ht hs hne.symm]

theorem perm_plan (h : Exchanges ss ss') (k : Lookup) (cur : Cursors) :
    (cur.plan k ss).Perm (cur.plan k ss') := by
  obtain ⟨-, ps, u, v, qs, hplan, hplan'⟩ := h.plan k cur
  rw [hplan, hplan']
  exact (List.Perm.swap _ _ qs).append_left ps

end Exchanges

theorem IsPlannable.exchange {program program' : List Line} (h : IsPlannable program)
    (hnarrow' : ∀ line ∈ program', line.wide = false)
    (hexchange : Exchanges (program.map (·.stmt)) (program'.map (·.stmt))) :
    IsPlannable program' := by
  exact ⟨hnarrow', (hexchange.perm.filterMap _).nodup_iff.1 h.once⟩

namespace Lookup

variable {k : Lookup} {program program' : List Line}

/-- A solution stays one when lines of code and data change places: they stay where they are in
    the plan. -/
theorem Solves.exchange (h : k.Solves program) (hprogram : IsPlannable program)
    (hprogram' : IsPlannable program')
    (hexchange : Exchanges (program.map (·.stmt)) (program'.map (·.stmt))) :
    k.Solves program' := by
  obtain ⟨hholds, hnames⟩ := (solves_iff hprogram).1 h
  refine (solves_iff hprogram').2 ⟨?_, ?_⟩
  · intro p hp
    exact hholds p ((hexchange.perm_plan k {}).mem_iff.2 hp)
  · intro name
    rw [hnames, hexchange.perm.any_eq]

theorem Le.antisymm {k' : Lookup} (h : k.Le k') (h' : k'.Le k) : k = k' := by
  funext name
  cases ha : k name with
  | some a =>
      obtain ⟨b, hb, hab⟩ := h name a ha
      obtain ⟨c, hc, hbc⟩ := h' name b hb
      obtain rfl : a = c := Option.some.inj (ha.symm.trans hc)
      rw [hb, Nat.le_antisymm hab hbc]
  | none =>
      cases hb : k' name with
      | none => rfl
      | some b =>
          obtain ⟨c, hc, -⟩ := h' name b hb
          exact absurd (ha.symm.trans hc) (by simp)

end Lookup

/-! ## Settled passes -/

namespace Pass

variable {program program' : List Line}

/-- No label settles above where it is in a solution. -/
theorem settled_le_of_solves (hroom : ({} : Layout).HasRoom program)
    (hnarrow : ∀ line ∈ program, line.wide = false) {k : Lookup} (h : k.Solves program) :
    Lookup.Le (settled program).symbols.address? k := by
  have hleast := (settled_eq_run_program hroom hnarrow).2 (run k program)
  rw [show (run k program).symbols.address? = k from h] at hleast
  have hle := (hleast rfl).labels
  rwa [show (run k program).symbols.address? = k from h] at hle

theorem solves_settled (hroom : ({} : Layout).HasRoom program)
    (hnarrow : ∀ line ∈ program, line.wide = false) :
    Lookup.Solves (settled program).symbols.address? program := by
  rw [Lookup.Solves, (settled_eq_run_program hroom hnarrow).1]

/-- Lines of code and data that change places settle as before. -/
theorem settled_exchange (hroom : ({} : Layout).HasRoom program)
    (hroom' : ({} : Layout).HasRoom program') (hprogram : IsPlannable program)
    (hprogram' : IsPlannable program')
    (hexchange : Exchanges (program.map (·.stmt)) (program'.map (·.stmt))) :
    (settled program').symbols.address? = (settled program).symbols.address? ∧
      (settled program').layout.cursors = (settled program).layout.cursors ∧
      ∃ ps u v qs, (settled program).entries.map Entry.placed = ps ++ u :: v :: qs ∧
        (settled program').entries.map Entry.placed = ps ++ v :: u :: qs := by
  have hsolves := solves_settled hroom hprogram.narrow
  have hsolves' := solves_settled hroom' hprogram'.narrow
  -- each of the two is a solution of both, and the least one of its own
  have hlabels : (settled program').symbols.address? = (settled program).symbols.address? := by
    refine Lookup.Le.antisymm ?_ ?_
    · exact settled_le_of_solves hroom' hprogram'.narrow
        (hsolves.exchange hprogram hprogram' hexchange)
    · exact settled_le_of_solves hroom hprogram.narrow
        (hsolves'.exchange hprogram' hprogram hexchange.symm)
  obtain ⟨hplaced, hcursors⟩ := hsolves.placed hprogram
  obtain ⟨hplaced', hcursors'⟩ := hsolves'.placed hprogram'
  rw [(settled_eq_run_program hroom hprogram.narrow).1] at hplaced hcursors
  rw [(settled_eq_run_program hroom' hprogram'.narrow).1, hlabels] at hplaced' hcursors'
  obtain ⟨hthrough, hplan⟩ := hexchange.plan (settled program).symbols.address? {}
  refine ⟨hlabels, ?_, ?_⟩
  · rw [hcursors, hcursors', hthrough]
  · rw [hplaced, hplaced']
    exact hplan

end Pass

/-! ## Source texts -/

/-- A line that is a label alone belongs neither to code nor to data. -/
theorem Stmt.segment?_of_isLoneLabel {ws : List String} (h : Source.isLoneLabel ws = true) :
    (ofWords ws).segment? = none := by
  obtain ⟨name, hname, rfl⟩ := Source.isLoneLabel_eq_true_iff.1 h
  simp [ofWords, ofOne, int?_append_colon hname, uncolon?_append_colon, segment?]

theorem Source.exchanges_statements {source source' : String} {before after : List (List Char)}
    {x y : List Char} (hlines : Text.lines source = before ++ x :: y :: after)
    (hlines' : Text.lines source' = before ++ y :: x :: after)
    (hfirst : (lines source)[before.length]? = some (written x)) {d e : Directive}
    (hx : (Stmt.ofWords (written x)).segment? = some d)
    (hy : (Stmt.ofWords (written y)).segment? = some e) (hne : d ≠ e) :
    Exchanges (statements source) (statements source') := by
  have hlone : ∀ {ws : List String} {c : Directive},
      (Stmt.ofWords ws).segment? = some c → isLoneLabel ws = false := by
    intro ws c hws
    refine Bool.eq_false_iff.2 fun h => ?_
    rw [Stmt.segment?_of_isLoneLabel h] at hws
    exact absurd hws (by simp)
  have hwords : lines source =
      carry [] (before.map written ++ written x :: written y :: after.map written) := by
    rw [lines, hlines, List.map_append]
    rfl
  have hwords' : lines source' =
      carry [] (before.map written ++ written y :: written x :: after.map written) := by
    rw [lines, hlines', List.map_append]
    rfl
  rw [hwords, ← before.length_map written] at hfirst
  obtain ⟨before', after', hcarry, hcarry'⟩ := carry_swap hfirst (hlone hx) (hlone hy)
  rw [statements, statements, hwords, hwords', hcarry, hcarry', List.map_append, List.map_append]
  exact ⟨hx, hy, hne, before'.map Stmt.ofWords, after'.map Stmt.ofWords⟩

/-- The order of code and data does not matter. If neighbouring lines of a text without defects
    change places, of which one is code and the other data, neither a label alone, and the first
    with no label carried to it, then labels and lines are assembled to the same cells as before,
    in the same widths; only the two lines are written in the other order. -/
theorem assemble_swap {source source' : String} {before after : List (List Char)}
    {x y : List Char} {d e : Directive} {o : Object}
    (hlines : Text.lines source = before ++ x :: y :: after)
    (hlines' : Text.lines source' = before ++ y :: x :: after)
    (hfirst : (Source.lines source)[before.length]? = some (Source.written x))
    (hx : (Stmt.ofWords (Source.written x)).segment? = some d)
    (hy : (Stmt.ofWords (Source.written y)).segment? = some e) (hne : d ≠ e)
    (hlength : (Text.lines source).length < 0x40000000)
    (hlabels : ∀ s ∈ Source.statements source, ∀ name ∈ s.defines?,
      Token.isIdentifier name = true)
    (honce : ((Source.statements source).filterMap Stmt.defines?).Nodup)
    (hclean : assembleClean source = .ok o) :
    ∃ o', assembleClean source' = .ok o' ∧
      (∀ label, o'.symbols.address? label = o.symbols.address? label) ∧ o'.start = o.start ∧
      o'.writes.Perm o.writes ∧
      ∃ ps u v qs,
        (Pass.settled (Source.program source)).entries.map Entry.placed = ps ++ u :: v :: qs ∧
        (Pass.settled (Source.program source')).entries.map Entry.placed = ps ++ v :: u :: qs := by
  have hexchange := Source.exchanges_statements hlines hlines' hfirst hx hy hne
  have hplain : ∀ s ∈ Source.statements source, ∀ name ∈ s.defines?, Operand.IsPlain name :=
    fun s hs name hname => Token.isPlain_of_isIdentifier (hlabels s hs name hname)
  have hplain' : ∀ s ∈ Source.statements source', ∀ name ∈ s.defines?, Operand.IsPlain name :=
    fun s hs => hplain s (hexchange.perm.mem_iff.2 hs)
  have hsame : (Text.lines source').length = (Text.lines source).length := by
    rw [hlines, hlines', List.length_append, List.length_append]
    rfl
  have hstmts : ∀ text, (Source.program text).map (·.stmt) = Source.statements text :=
    fun text => (Source.map_program text id).trans (List.map_id _)
  rw [← hstmts, ← hstmts] at hexchange
  rw [← hstmts] at honce
  have hprogram : IsPlannable (Source.program source) :=
    ⟨Source.wide_eq_false_of_mem_program, honce⟩
  have hprogram' : IsPlannable (Source.program source') :=
    hprogram.exchange Source.wide_eq_false_of_mem_program hexchange
  obtain ⟨haddress, hcursors, ps, u, v, qs, hplaced, hplaced'⟩ := Pass.settled_exchange
    (Source.hasRoom_program hplain hlength) (Source.hasRoom_program hplain' (hsame ▸ hlength))
    hprogram hprogram' hexchange
  have hperm : ((Pass.settled (Source.program source')).entries.map Entry.placed).Perm
      ((Pass.settled (Source.program source)).entries.map Entry.placed) := by
    rw [hplaced, hplaced']
    exact (List.Perm.swap _ _ qs).append_left ps
  obtain ⟨rfl, hdefects⟩ := assembleClean_eq_ok hclean
  have hdefects' : ∀ e ∈ (Pass.settled (Source.program source')).entries, e.defects = [] := by
    intro e' he'
    obtain ⟨e, he, heq⟩ := List.mem_map.1 (hperm.mem_iff.1 (List.mem_map_of_mem he'))
    rw [← hdefects e he]
    exact (congrArg Placed.defects heq).symm
  refine ⟨_, assembleClean_of_defects_eq_nil hdefects', ?_⟩
  generalize Pass.settled (Source.program source) = p at haddress hcursors hplaced hperm ⊢
  generalize Pass.settled (Source.program source') = p' at haddress hcursors hplaced' hperm ⊢
  refine ⟨fun label => congrFun haddress label, congrArg Cursors.start hcursors, ?_, ps, u, v, qs,
    hplaced, hplaced'⟩
  have hwrites := hperm.flatMap_right Placed.writes
  rw [List.flatMap_map, List.flatMap_map] at hwrites
  exact hwrites

/-- A label that is used before its definition is then used after it, and takes two cells either
    way. -/
theorem assemble_swap_forward_reference :
    ∃ o o', assembleClean ".data 100\nINC X\nX: 5\nEND: HLT" = .ok o ∧
      assembleClean ".data 100\nX: 5\nINC X\nEND: HLT" = .ok o' ∧
      o.writes = [(0, 9000), (1, 100), (100, 5), (2, 0)] ∧ o'.writes.Perm o.writes ∧
      o'.symbols.address? "END" = some 2 := by
  have hclean : assembleClean ".data 100\nINC X\nX: 5\nEND: HLT" = .ok _ :=
    assembleClean_of_findings_eq_nil (by decide +kernel)
  have hlines : Text.lines ".data 100\nINC X\nX: 5\nEND: HLT" =
      [".data 100".toList] ++ "INC X".toList :: "X: 5".toList :: ["END: HLT".toList] := by
    decide +kernel
  have hlines' : Text.lines ".data 100\nX: 5\nINC X\nEND: HLT" =
      [".data 100".toList] ++ "X: 5".toList :: "INC X".toList :: ["END: HLT".toList] := by
    decide +kernel
  obtain ⟨o', hclean', hlabels, -, hwrites, -⟩ := assemble_swap (d := .code) (e := .data)
    hlines hlines' (by decide +kernel) (by decide +kernel) (by decide +kernel) (by decide)
    (by decide +kernel) (by decide +kernel) (by decide +kernel) hclean
  refine ⟨_, o', hclean, hclean', by decide +kernel, hwrites, ?_⟩
  rw [hlabels]
  decide +kernel

end DecimalMachine
