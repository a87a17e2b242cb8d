import DecimalMachine.Proofs.Assembly.Monotone
import DecimalMachine.Proofs.Assembly.Settling

set_option autoImplicit false

/-! # Least widths

A pass keeps the instructions wide that an earlier pass made wide. Without this memory the passes
over a program would be the iterates of one function on label addresses, starting from none
known. With plain labels and addresses that do not wrap, that function is monotone, so labels only
move up from pass to pass and an instruction that was wide once would be made wide again: the
memory changes nothing (`Pass.nth_eq_run_program`). The settled pass is then the least solution,
and no instruction in it is wider than its operand asks for (`Pass.writes_eq_words`). -/

namespace DecimalMachine

/-! ## Room for addresses -/

/-- The labels of some lines are plain, and the lines are so few that no address wraps on the way:
    each of them moves a cursor by two at most, or to an address below `2 ^ 31`. -/
structure Layout.HasRoom (lay : Layout) (lines : List Line) : Prop where
  plain : ∀ line ∈ lines, ∀ name, line.stmt.defines? = some name → Operand.IsPlain name
  within : ∃ b, lay.Within b ∧ 0x7fffffff ≤ b ∧ b + 2 * lines.length < 0x100000000

section Walk

variable {before before' : Lookup} {lay lay' : Layout} {line : Line} {lines rest : List Line}

namespace Layout

theorem HasRoom.step (h : lay.HasRoom (line :: rest)) (before : Lookup) :
    (lay.step before line).2.HasRoom rest := by
  obtain ⟨hplain, b, hwithin, hb, hlt⟩ := h
  rw [List.length_cons] at hlt
  have hstep : (lay.step before line).2.Within (b + 2) :=
    hwithin.step hb (hplain line List.mem_cons_self)
  exact ⟨fun l hl => hplain l (List.mem_cons_of_mem _ hl), b + 2, hstep, by omega, by omega⟩

theorem HasRoom.walk (h : lay.HasRoom (lines ++ rest)) (before : Lookup) :
    (lay.walk before lines).HasRoom rest := by
  induction lines generalizing lay with
  | nil => exact h
  | cons line lines ih => exact ih (h.step before)

theorem HasRoom.fits (h : lay.HasRoom lines) : Lookup.Fits lay.address? := by
  obtain ⟨-, b, hwithin, -, hlt⟩ := h
  constructor
  · exact hwithin.plain
  · intro name a ha
    have hle := hwithin.labels name a ha
    omega

theorem HasRoom.fits_seen (h : lay.HasRoom (line :: rest)) (hbefore : before.Fits) :
    (lay.seen before line).Fits := by
  obtain ⟨hplain, b, hwithin, hb, hlt⟩ := h
  exact hwithin.seen hb (by omega) (hplain line List.mem_cons_self) hbefore

/-! ## Walks side by side -/

/-- What is lower in front of some lines is lower after them. -/
theorem Le.walk (h : lay.Le lay') (hbefore : before.Le before') (hfits : before'.Fits)
    (hroom : lay'.HasRoom (lines ++ rest)) :
    (lay.walk before lines).Le (lay'.walk before' lines) := by
  induction lines generalizing lay lay' with
  | nil => exact h
  | cons line lines ih =>
      have hstep : (lay.step before line).2.Le (lay'.step before' line).2 :=
        h.step hbefore (hroom.fits_seen hfits)
      exact ih hstep (hroom.step before')

/-- A line that was made wide among lower labels is made wide again: to keep it wide changes
    nothing. -/
theorem Le.step_wide (h : lay.Le lay') (hbefore : before.Le before')
    (hfits : (lay'.seen before' line).Fits) :
    lay'.step before' (lay.step before line).1.line = lay'.step before' line := by
  cases hwide : (lay.emission before line).isWide with
  | false =>
      have hline : (lay.step before line).1.line = line := by
        simp [step_fst, hwide]
      rw [hline]
  | true =>
      have hline : (lay.step before line).1.line = { line with wide := true } := by
        simp [step_fst, hwide]
      have hagain : (lay'.emission before' line).isWide = true :=
        Stmt.isWide_emit_mono (h.seen hbefore line) hfits hwide
      rw [hline]
      exact Layout.step_wide hagain

end Layout

theorem Pass.runFrom_lines_runFrom (h : lay.Le lay') (hbefore : before.Le before')
    (hfits : before'.Fits) (hroom : lay'.HasRoom lines) :
    runFrom before' lay' (runFrom before lay lines).lines = runFrom before' lay' lines := by
  induction lines generalizing lay lay' with
  | nil => rfl
  | cons line rest ih =>
      have hseen := hroom.fits_seen hfits
      have hstep : lay'.step before' (lay.step before line).1.line = lay'.step before' line :=
        h.step_wide hbefore hseen
      have hrest := ih (h.step hbefore hseen) (hroom.step before')
      rw [lines_runFrom_cons]
      simp only [runFrom]
      rw [Layout.step_fst] at hstep
      rw [hstep, hrest]

end Walk

/-! ## Passes side by side -/

/-- A line stands no higher and is no longer. -/
structure Entry.Le (e e' : Entry) : Prop where
  site : ∀ a, e.site? = some a → ∃ b, e'.site? = some b ∧ a ≤ b
  count : e.writes.length ≤ e'.writes.length

/-- No label and no line stands higher, and no line is longer. -/
structure Pass.Le (p q : Pass) : Prop where
  labels : Lookup.Le p.symbols.address? q.symbols.address?
  entries : ∀ (n : Nat) (e e' : Entry), p.entries[n]? = some e → q.entries[n]? = some e' → e.Le e'

namespace Pass

variable {before before' : Lookup} {program : List Line}

/-- A pass finds labels that fit if there is room for them. -/
theorem fits_run (hroom : ({} : Layout).HasRoom program) (before : Lookup) :
    Lookup.Fits (run before program).symbols.address? := by
  rw [← List.append_nil program] at hroom
  have hend := hroom.walk before
  rw [← layout_runFrom] at hend
  exact hend.fits

/-- A pass that knows lower labels leaves everything lower, and no line longer. -/
theorem run_mono (hroom : ({} : Layout).HasRoom program) (hbefore : before.Le before')
    (hfits : before'.Fits) : (run before program).Le (run before' program) := by
  constructor
  · rw [← List.append_nil program] at hroom
    have hwalk : (Layout.walk before {} program).Le (Layout.walk before' {} program) :=
      Layout.Le.walk (.refl _) hbefore hfits hroom
    rw [← layout_runFrom, ← layout_runFrom] at hwalk
    exact hwalk.labels
  · intro n e e' he he'
    rw [run, getElem?_entries_runFrom] at he he'
    obtain ⟨line, hline, rfl⟩ := Option.map_eq_some_iff.1 he
    rw [hline, Option.map_some, Option.some.injEq] at he'
    rw [eq_append_of_getElem? hline] at hroom
    have hwalk : (Layout.walk before {} (program.take n)).Le
        (Layout.walk before' {} (program.take n)) :=
      Layout.Le.walk (.refl _) hbefore hfits hroom
    rw [← he', Layout.step_fst, Layout.step_fst]
    constructor
    · intro a ha
      rcases Cursors.site?_mono hwalk.code hwalk.data line.stmt with ⟨h, -⟩ | ⟨a', b, h, h', hab⟩
      · exact absurd (h.symm.trans ha) (by simp)
      · obtain rfl : a' = a := Option.some.inj (h.symm.trans ha)
        exact ⟨b, h', hab⟩
    · simp only [List.length_map, List.length_zipIdx]
      exact Stmt.length_cells_emit_mono (hwalk.seen hbefore line)
        ((hroom.walk before').fits_seen hfits) line.wide line.stmt

/-! ## Passes without a memory -/

/-- The labels known before a pass fit, are no higher than before the next, and the pass is as if
    no line had been kept wide. -/
theorem nth_eq_run_program (hroom : ({} : Layout).HasRoom program) (n : Nat) :
    (knownBefore program n).Fits ∧ (knownBefore program n).Le (knownBefore program (n + 1)) ∧
      nth program n = run (knownBefore program n) program := by
  induction n with
  | zero => exact ⟨⟨nofun, nofun⟩, nofun, rfl⟩
  | succ n ih =>
      obtain ⟨hfits, hle, hnth⟩ := ih
      have hknown : knownBefore program (n + 1) =
          (run (knownBefore program n) program).symbols.address? := by
        rw [← hnth]
        rfl
      have hfits' : (knownBefore program (n + 1)).Fits := by
        rw [hknown]
        exact fits_run hroom _
      have hnth' : nth program (n + 1) = run (knownBefore program (n + 1)) program := by
        change run (knownBefore program (n + 1)) (nth program n).lines = _
        rw [hnth]
        exact runFrom_lines_runFrom (.refl _) hle hfits' hroom
      refine ⟨hfits', ?_, hnth'⟩
      have hmono := (run_mono hroom hle hfits').labels
      rw [← hknown, ← hnth'] at hmono
      exact hmono

/-- The settled pass is a solution for its own labels, and the least one. -/
theorem settled_eq_run_program (hroom : ({} : Layout).HasRoom program)
    (hnarrow : ∀ line ∈ program, line.wide = false) :
    run (settled program).symbols.address? program = settled program ∧
      ∀ q, run q.symbols.address? program = q → (settled program).Le q := by
  obtain ⟨n, -, hsettled, hstable, -⟩ := exists_settled_eq_nth program hnarrow
  obtain ⟨-, -, hnth⟩ := nth_eq_run_program hroom n
  have hknown := knownBefore_eq_of_isStable program hstable
  refine ⟨?_, ?_⟩
  · rw [hsettled, ← hknown, ← hnth]
  · intro q hq
    have hfits : Lookup.Fits q.symbols.address? := hq ▸ fits_run hroom q.symbols.address?
    -- every pass starts below the labels of a solution, as the first knows none at all
    have hbelow : ∀ i, (knownBefore program i).Le q.symbols.address? := by
      intro i
      induction i with
      | zero => exact nofun
      | succ i ih =>
          obtain ⟨-, -, hith⟩ := nth_eq_run_program hroom i
          have hmono := (run_mono hroom ih hfits).labels
          rw [hq, ← hith] at hmono
          exact hmono
    have hmono := run_mono hroom (hbelow n) hfits
    rw [hq, ← hnth, ← hsettled] at hmono
    exact hmono

/-! ## Final operands -/

/-- The labels as the operand on a line sees them: where they were defined last up to that line,
    or else where they stand after the pass. -/
def visible (p : Pass) (n : Nat) : Lookup := fun name =>
  ((p.entries.take (n + 1)).reverse.findSome? (·.binds? name)).or (p.symbols.address? name)

/-- In a pass that is a solution for its labels, every line sees the labels that its operand sees
    in the end. -/
theorem seen_eq_visible {p : Pass} (hp : run p.symbols.address? program = p) {n : Nat}
    {line : Line} (hline : program[n]? = some line) :
    (Layout.walk p.symbols.address? {} (program.take n)).seen p.symbols.address? line =
      p.visible n := by
  funext name
  have htake : program.take (n + 1) = program.take n ++ [line] := by
    rw [List.take_add_one, hline]
    rfl
  have hentries : p.entries.take (n + 1) =
      (runFrom p.symbols.address? {} (program.take n ++ [line])).entries := by
    rw [← htake, ← take_entries_runFrom]
    exact congrArg (fun q : Pass => q.entries.take (n + 1)) hp.symm
  have hwalk := address?_walk p.symbols.address? {} (program.take n ++ [line]) name
  rw [Layout.walk_append, Layout.walk_cons, Layout.walk_nil, Layout.address?_step,
    Layout.address?_empty, Option.or_none, ← hentries] at hwalk
  rw [visible, Layout.seen, Layout.known_apply, hwalk]

/-- In a solution no instruction is wider than its final operand asks for. -/
theorem writes_eq_words {p : Pass} (hp : run p.symbols.address? program = p)
    (hnarrow : ∀ line ∈ program, line.wide = false) {n : Nat} {line : Line}
    (hline : program[n]? = some line) {place : Option Place} {mnemonic word : String}
    (hstmt : line.stmt = .put place (.instr mnemonic word)) {op : Opcode}
    (hop : Opcode.ofWord? mnemonic = some op) (hne : op ≠ .hlt) {entry : Entry}
    (hentry : p.entries[n]? = some entry) (hwrites : entry.writes ≠ []) :
    ∃ e, (⟨op, some (Operand.taken (p.visible n) word)⟩ : Instr).encode = .ok e ∧
      entry.writes.map (·.2) = e.words := by
  have hget := getElem?_entries_runFrom p.symbols.address? {} program n
  rw [hline, Option.map_some] at hget
  have hsame := hget.symm.trans ((congrArg (fun q : Pass => q.entries[n]?) hp).trans hentry)
  obtain rfl := Option.some.inj hsame
  rw [Layout.step_fst] at hwrites ⊢
  simp only [Layout.emission, seen_eq_visible hp hline, hnarrow line (List.mem_of_getElem? hline),
    hstmt, Stmt.emit] at hwrites ⊢
  cases hplace : Stmt.isMisplaced place with
  | true => simp [hplace, Emission.ofDefect] at hwrites
  | false =>
      simp only [hplace, Bool.false_eq_true, if_false, Stmt.emitItem,
        emitInstr_eq hop hne] at hwrites ⊢
      unfold Instr.encode
      cases he : (⟨op, some (Operand.taken (p.visible n) word)⟩ : Instr).encodeFrom .packed with
      | error d => simp [he] at hwrites
      | ok e =>
          refine ⟨e, rfl, ?_⟩
          rw [List.map_map]
          exact List.zipIdx_map_fst _ _

end Pass

/-! ## Source texts -/

theorem Source.hasRoom_program {source : String}
    (hplain : ∀ s ∈ statements source, ∀ name ∈ s.defines?, Operand.IsPlain name)
    (hlength : (Text.lines source).length < 0x40000000) :
    ({} : Layout).HasRoom (program source) := by
  have hcount : (program source).length = (Text.lines source).length := by
    rw [length_program, statements, List.length_map, length_lines]
  have hwithin : ({} : Layout).Within 0x7fffffff := ⟨Nat.zero_le _, Nat.zero_le _, nofun, nofun⟩
  refine ⟨?_, 0x7fffffff, hwithin, Nat.le_refl _, by omega⟩
  intro line hline name hname
  have hmem : line.stmt ∈ (statements source).map id := by
    rw [← map_program source id]
    exact List.mem_map_of_mem hline
  rw [List.map_id] at hmem
  exact hplain line.stmt hmem name hname

/-- Where all labels of a text are plain and its lines are fewer than `2 ^ 30`, its settled pass
    is the least solution of the equations between the cells of its labels and the widths of its
    instructions, and every instruction that is emitted takes as many cells as its final operand
    asks for. -/
theorem settled_isLeast {source : String}
    (hplain : ∀ s ∈ Source.statements source, ∀ name ∈ s.defines?, Operand.IsPlain name)
    (hlength : (Text.lines source).length < 0x40000000) :
    let p := Pass.settled (Source.program source)
    (Pass.run p.symbols.address? (Source.program source) = p ∧
      ∀ q, Pass.run q.symbols.address? (Source.program source) = q → p.Le q) ∧
    ∀ n place mnemonic word op entry,
      (Source.statements source)[n]? = some (.put place (.instr mnemonic word)) →
      Opcode.ofWord? mnemonic = some op → op ≠ .hlt →
      p.entries[n]? = some entry → entry.writes ≠ [] →
      ∃ e, (⟨op, some (Operand.taken (p.visible n) word)⟩ : Instr).encode = .ok e ∧
        entry.writes.map (·.2) = e.words ∧ entry.writes.length = e.width.cells := by
  intro p
  have hsolution := Pass.settled_eq_run_program (Source.hasRoom_program hplain hlength)
    Source.wide_eq_false_of_mem_program
  refine ⟨hsolution, ?_⟩
  intro n place mnemonic word op entry hs hop hne hentry hwrites
  obtain ⟨e, he, hwords⟩ := Pass.writes_eq_words hsolution.1 Source.wide_eq_false_of_mem_program
    (Source.getElem?_program hs) rfl hop hne hentry hwrites
  refine ⟨e, he, hwords, ?_⟩
  rw [← Encoded.length_words, ← hwords, List.length_map]

/-- The branch needs two cells only because it takes two cells itself. -/
theorem settled_isLeast_forward_label :
    ∃ e, (⟨.bra, some (Operand.taken ((Pass.settled (Source.program
        ".code 998\nBRA END\nCPA $1\nEND: HLT")).visible 1) "END")⟩ : Instr).encode = .ok e ∧
      e.words = [9050, 1001] := by
  have hplain : ∀ s ∈ Source.statements ".code 998\nBRA END\nCPA $1\nEND: HLT",
      ∀ name ∈ s.defines?, Operand.IsPlain name := by
    decide +kernel
  have hentry : (Pass.settled
      (Source.program ".code 998\nBRA END\nCPA $1\nEND: HLT")).entries[1]? =
        some ⟨⟨2, .put none (.instr "BRA" "END"), true⟩, some 998,
          [(998, 9050), (999, 1001)], []⟩ := by
    decide +kernel
  obtain ⟨-, hwidths⟩ := settled_isLeast hplain (by decide +kernel)
  obtain ⟨e, he, hwords, -⟩ := hwidths 1 none "BRA" "END" .bra _ (by decide +kernel)
    (by decide +kernel) (by decide) hentry (by simp)
  exact ⟨e, he, hwords.symm⟩

end DecimalMachine
