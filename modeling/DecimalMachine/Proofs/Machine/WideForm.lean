import DecimalMachine.Proofs.Machine.Faults

set_option autoImplicit false

/-! # Instructions that are wide without need

An instruction can be wide although its operand fits into its word; the assembler leaves it so when
a label that made it wide moves back. It does then what its packed form does
(`Machine.step_of_wide`). For its effect is worked out from the cells that it touches
(`Core.Touches`), so it is the same in two memories that agree on these (`Core.effectOf_congr`),
whatever the cells of the instruction itself hold; and its width only matters for where it goes on
if it does not branch (`Core.GoesOn`). -/

namespace DecimalMachine

/-! ## Memories that agree -/

/-- Two memories are of one size and hold the same, but for some cells. -/
structure Memory.AgreeOff (own : Nat → Prop) (m m' : Memory) : Prop where
  size : m'.size = m.size
  cells : ∀ a, ¬ own a → m'.cells[a]? = m.cells[a]?

namespace Memory

variable {own : Nat → Prop} {m m' m'' : Memory} {x : Operand}

/-- Two memories that agree with a third one agree with each other. -/
theorem AgreeOff.trans_symm (h : AgreeOff own m m') (h' : AgreeOff own m m'') :
    AgreeOff own m' m'' :=
  ⟨h'.size.trans h.size.symm, fun a ha => (h'.cells a ha).trans (h.cells a ha).symm⟩

theorem AgreeOff.locate (h : AgreeOff own m m') (v : Cell) : m'.locate v = m.locate v := by
  unfold Memory.locate
  rw [h.size]

theorem AgreeOff.read (h : AgreeOff own m m') {a : Nat} (ha : ¬ own a) :
    m'.read a = m.read a := by
  unfold Memory.read
  rw [h.cells a ha]

/-- The address of an operand is the same if its pointer, where it has one, is in a cell on which
    the memories agree. -/
theorem AgreeOff.address (h : AgreeOff own m m')
    (hpointer : x.mode = .indirect → ∀ a : Nat, x.value.toInt = a → ¬ own a) :
    m'.address x = m.address x := by
  by_cases hmode : x.mode = .indirect
  · obtain ⟨_, v⟩ := x
    obtain rfl : _ = Mode.indirect := hmode
    simp only [Memory.address, h.locate]
    cases hv : m.locate v with
    | error f => rfl
    | ok a =>
        have ha := hpointer rfl a (locate_eq_ok_iff.1 hv).1
        simp only [bind, Except.bind, h.read ha]
  · rw [address_of_ne hmode, address_of_ne hmode, h.locate]

/-- The value of an operand is the same if the cell that it names is one on which the memories
    agree, too. -/
theorem AgreeOff.value (h : AgreeOff own m m')
    (hpointer : x.mode = .indirect → ∀ a : Nat, x.value.toInt = a → ¬ own a)
    (htarget : x.mode ≠ .immediate → ∀ a : Nat, m.Names x a → ¬ own a) :
    m'.value x = m.value x := by
  by_cases hmode : x.mode = .immediate
  · obtain ⟨_, v⟩ := x
    obtain rfl : _ = Mode.immediate := hmode
    rfl
  · rw [value_of_ne hmode, value_of_ne hmode, h.address hpointer]
    cases ha : m.address x with
    | error f => rfl
    | ok a => exact h.read (htarget hmode a (address_eq_ok_iff.1 ha).1)

/-- To store a value in a cell on which the memories agree changes it in both or in neither, and
    they go on to agree. -/
theorem AgreeOff.store (h : AgreeOff own m m') {a : Nat} (ha : ¬ own a) (v : Cell) :
    (m'.store a v).2 = (m.store a v).2 ∧ AgreeOff own (m.store a v).1 (m'.store a v).1 := by
  refine ⟨?_, by rw [size_store, size_store, h.size], fun b hb => ?_⟩
  · have hcell := h.cells a ha
    have hsize : m'.cells.size = m.cells.size := h.size
    unfold Memory.store
    by_cases hlt : a < m.cells.size
    · have hlt' : a < m'.cells.size := hsize ▸ hlt
      rw [Array.getElem?_eq_getElem hlt, Array.getElem?_eq_getElem hlt', Option.some.injEq] at hcell
      simp only [dif_pos hlt, dif_pos hlt', hcell]
    · have hlt' : ¬ a < m'.cells.size := hsize ▸ hlt
      simp only [dif_neg hlt, dif_neg hlt']
  · rw [getElem?_store, getElem?_store, h.cells b hb]

end Memory

namespace Core

/-! ## Cells that an instruction touches -/

/-- To work out its operand, or to store something, an instruction reads or writes a cell. A branch
    only goes on from the cell that its operand names, and does not touch it. -/
inductive Touches (c : Core) (op : Opcode) (x : Operand) (a : Nat) : Prop
  /-- The pointer of the operand is read there. -/
  | pointer (hx : c.Evaluates x op) (hmode : x.mode = .indirect) (ha : x.value.toInt = a)
  /-- The value of the operand is read there. -/
  | read {f : Int → Int → Int} (hop : op.accumulates? = some f) (hmode : x.mode ≠ .immediate)
      (ha : c.memory.Names x a)
  /-- Something is stored there. -/
  | write {f : Int → Int → Int} (hop : op.stores? = some f) (ha : c.memory.Names x a)

/-- An opcode goes on from the address of its operand. -/
def Branches (c : Core) (op : Opcode) : Prop :=
  ∃ p, op.branches? = some p ∧ p c.acu.toInt

section Effects

variable {c c' : Core} {op : Opcode} {x : Operand} {next : Nat} {e : Effect}
  {own : Nat → Prop}

/-- The effect of an instruction is the same in two memories that agree on the cells that it
    touches. -/
theorem effectOf_congr (hacu : c'.acu = c.acu) (h : c.memory.AgreeOff own c'.memory)
    (hown : ∀ a, c.Touches op x a → ¬ own a) : c'.effectOf op x next = c.effectOf op x next := by
  by_cases hop : op = .hlt
  · subst hop
    rfl
  have hpointer (hx : c.Evaluates x op) :
      x.mode = .indirect → ∀ a : Nat, x.value.toInt = a → ¬ own a :=
    fun hmode a ha => hown a (.pointer hx hmode ha)
  rcases Opcode.kinds hop with ⟨f, hf⟩ | ⟨f, hf⟩ | ⟨p, hp⟩
  · have hvalue : c'.memory.value x = c.memory.value x := by
      refine h.value ?_ (fun hmode a ha => hown a (.read hf hmode ha))
      intro hmode
      have hne : x.mode ≠ .immediate := by simp [hmode]
      exact hpointer (.read hf hne) hmode
    rw [effectOf_of_accumulates hf, effectOf_of_accumulates hf, hvalue, hacu]
  · rw [effectOf_of_stores hf, effectOf_of_stores hf, h.address (hpointer (.write hf)), hacu]
    cases ha : c.memory.address x with
    | error f => rfl
    | ok a =>
        have hread := h.read (hown a (.write hf (Memory.address_eq_ok_iff.1 ha).1))
        simp only [bind, Except.bind, hread]
  · by_cases htaken : p c.acu.toInt
    · have htaken' : p c'.acu.toInt := hacu ▸ htaken
      rw [effectOf_of_branches hp htaken, effectOf_of_branches hp htaken', hacu,
        h.address (hpointer (.branch hp htaken))]
    · have hnot : ¬ p c'.acu.toInt := hacu ▸ htaken
      rw [effectOf_of_not_branches hp htaken, effectOf_of_not_branches hp hnot, hacu]

/-- Where a branch leads does not depend on where it stands. -/
theorem effectOf_of_branching (h : c.Branches op) (next next' : Nat) :
    c.effectOf op x next' = c.effectOf op x next := by
  obtain ⟨p, hp, htaken⟩ := h
  rw [effectOf_of_branches hp htaken, effectOf_of_branches hp htaken]

/-- What does not branch goes on after itself, and where that is makes no other difference. -/
theorem effectOf_of_not_branching (h : ¬ c.Branches op) (next next' : Nat) :
    c.effectOf op x next' =
      (c.effectOf op x next).map (Option.map fun e => { e with pc := next' }) := by
  by_cases hop : op = .hlt
  · subst hop
    rfl
  rcases Opcode.kinds hop with ⟨f, hf⟩ | ⟨f, hf⟩ | ⟨p, hp⟩
  · rw [effectOf_of_accumulates hf, effectOf_of_accumulates hf]
    cases c.memory.value x <;> rfl
  · rw [effectOf_of_stores hf, effectOf_of_stores hf]
    cases c.memory.address x with
    | error f => rfl
    | ok a =>
        simp only [bind, Except.bind]
        cases c.memory.read a <;> rfl
  · have hnot : ¬ p c.acu.toInt := fun htaken => h ⟨p, hp, htaken⟩
    rw [effectOf_of_not_branches hp hnot, effectOf_of_not_branches hp hnot]
    rfl

theorem names_of_branching (h : c.Branches op) (he : c.effectOf op x next = .ok (some e)) :
    c.memory.Names x e.pc := by
  obtain ⟨p, hp, htaken⟩ := h
  rw [effectOf_of_branches hp htaken] at he
  obtain ⟨a, ha, heq⟩ := Fault.map_eq_ok_iff.1 he
  obtain rfl := Option.some.inj heq
  exact (Memory.address_eq_ok_iff.1 ha).1

/-- An instruction that goes on at one address or at another. Both branch to what the operand
    names, or neither of them branches. -/
inductive GoesOn (c : Core) (op : Opcode) (x : Operand) (next next' : Nat) : Nat → Nat → Prop
  | branch {a : Nat} (h : c.Branches op) (ha : c.memory.Names x a) :
      GoesOn c op x next next' a a
  | pass (h : ¬ c.Branches op) : GoesOn c op x next next' next next'

theorem effectOf_of_error {f : Fault} (he : c.effectOf op x next = .error f) (next' : Nat) :
    c.effectOf op x next' = .error f := by
  by_cases h : c.Branches op
  · rw [effectOf_of_branching h next, he]
  · rw [effectOf_of_not_branching h next, he]
    rfl

theorem exists_effectOf (he : c.effectOf op x next = .ok (some e)) (next' : Nat) :
    ∃ e', c.effectOf op x next' = .ok (some e') ∧ e'.acu = e.acu ∧ e'.write? = e.write? ∧
      c.GoesOn op x next next' e.pc e'.pc := by
  by_cases h : c.Branches op
  · refine ⟨e, ?_, rfl, rfl, .branch h (names_of_branching h he)⟩
    rw [effectOf_of_branching h next, he]
  · have hself := effectOf_of_not_branching h next next (x := x)
    have hnext := effectOf_of_not_branching h next next' (x := x)
    rw [he] at hself hnext
    have hpc : e.pc = next := congrArg Effect.pc (Option.some.inj (Except.ok.inj hself))
    exact ⟨_, hnext, rfl, rfl, hpc ▸ .pass h⟩

/-- What is written is written to a cell that the instruction touches. -/
theorem touches_of_write {a : Nat} {v : Cell} (he : c.effectOf op x next = .ok (some e))
    (hwrite : e.write? = some (a, v)) : c.Touches op x a := by
  have hop : op ≠ .hlt := by
    rintro rfl
    exact absurd (Except.ok.inj he) (by simp)
  rcases Opcode.kinds hop with ⟨f, hf⟩ | ⟨f, hf⟩ | ⟨p, hp⟩
  · rw [effectOf_of_accumulates hf] at he
    obtain ⟨v, -, heq⟩ := Fault.map_eq_ok_iff.1 he
    obtain rfl := Option.some.inj heq
    exact absurd hwrite (by simp)
  · rw [effectOf_of_stores hf] at he
    obtain ⟨b, hb, he⟩ := Fault.bind_eq_ok_iff.1 he
    obtain ⟨old, -, he⟩ := Fault.bind_eq_ok_iff.1 he
    obtain rfl := Option.some.inj (Except.ok.inj he)
    obtain ⟨rfl, -⟩ : b = a ∧ _ := by simpa using hwrite
    exact .write hf (Memory.address_eq_ok_iff.1 hb).1
  · by_cases htaken : p c.acu.toInt
    · rw [effectOf_of_branches hp htaken] at he
      obtain ⟨b, -, heq⟩ := Fault.map_eq_ok_iff.1 he
      obtain rfl := Option.some.inj heq
      exact absurd hwrite (by simp)
    · rw [effectOf_of_not_branches hp htaken] at he
      obtain rfl := Option.some.inj (Except.ok.inj he)
      exact absurd hwrite (by simp)

/-- Effects that write the same change the same cell, if the memories agree on it, and leave
    memories that agree as they did before. -/
theorem apply_congr (h : c.memory.AgreeOff own c'.memory) {e' : Effect}
    (hwrite : e'.write? = e.write?) (hown : ∀ a v, e.write? = some (a, v) → ¬ own a) :
    (c'.apply e').2 = (c.apply e).2 ∧
      (c.apply e).1.memory.AgreeOff own (c'.apply e').1.memory := by
  unfold apply
  rw [hwrite]
  cases hw : e.write? with
  | none => exact ⟨rfl, h⟩
  | some w =>
      obtain ⟨a, v⟩ := w
      obtain ⟨hchanged, hmemory⟩ := h.store (hown a v hw) v
      dsimp only
      rw [hchanged]
      exact ⟨rfl, hmemory⟩

theorem acu_apply (c : Core) (e : Effect) : (c.apply e).1.acu = e.acu := by
  unfold apply
  split <;> rfl

theorem pc_apply (c : Core) (e : Effect) : (c.apply e).1.pc = e.pc := by
  unfold apply
  split <;> rfl

end Effects

/-! ## Cores that hold an instruction -/

/-- A core with an instruction written to the cells from its instruction pointer on. -/
def holding (c : Core) (e : Encoded) : Core :=
  let writes := (e.words.zipIdx c.pc).map fun (v, a) => (a, v)
  { c with memory := (c.memory.storeAll writes).1 }

/-- The cells that an instruction at the instruction pointer can take. -/
def Own (c : Core) (a : Nat) : Prop :=
  a = c.pc ∨ a = c.pc + 1

variable {c : Core} {i : Instr} {e : Encoded}

theorem agreeOff_holding (c : Core) (e : Encoded) :
    c.memory.AgreeOff c.Own (c.holding e).memory := by
  refine ⟨Memory.size_storeAll _ _, ?_⟩
  intro a hown
  obtain ⟨hfirst, hsecond⟩ := not_or.1 hown
  unfold holding
  rw [Memory.getElem?_storeAll]
  cases e <;> simp [Encoded.words, List.zipIdx_cons, lastWrite?_cons, hfirst, hsecond]

theorem fetches_holding (h : i.EncodesAs e) (hroom : c.pc + 1 < c.memory.size) :
    (c.holding e).Fetches i e.width := by
  obtain ⟨first, hfirst⟩ := Memory.exists_has (Nat.lt_of_succ_lt hroom)
  obtain ⟨second, hsecond⟩ := Memory.exists_has hroom
  rw [Memory.has_iff] at hfirst hsecond
  cases e with
  | packed w =>
      have hword : (c.holding (.packed w)).memory.Has c.pc w := by
        rw [Memory.has_iff]
        simp [holding, Memory.getElem?_storeAll, Encoded.words, lastWrite?_cons, hfirst]
      exact .packed hword fun next => Instr.decode_of_encodesAs h rfl (by simp [Encoded.words])
  | wide w v =>
      have hword : (c.holding (.wide w v)).memory.Has c.pc w := by
        rw [Memory.has_iff]
        simp [holding, Memory.getElem?_storeAll, Encoded.words, lastWrite?_cons, hfirst]
      have hv : (c.holding (.wide w v)).memory.Has (c.pc + 1 : Nat) v := by
        rw [Memory.has_iff]
        simp [holding, Memory.getElem?_storeAll, Encoded.words, lastWrite?_cons, hsecond]
      exact .wide hword hv (Instr.decode_of_encodesAs h rfl (by simp [Encoded.words]))

theorem effect_holding {op : Opcode} {x : Operand} (h : (⟨op, some x⟩ : Instr).EncodesAs e)
    (hroom : c.pc + 1 < c.memory.size) (hown : ∀ a, c.Touches op x a → ¬ c.Own a) :
    (c.holding e).effect = c.effectOf op x (c.pc + e.width.cells) := by
  rw [effect_of_fetches (fetches_holding h hroom)]
  exact effectOf_congr rfl (agreeOff_holding c e) hown

end Core

/-! ## Steps -/

/-- Two machines have come to the same, but for where they go on and for some cells. -/
structure Machine.AgreeOff (own : Nat → Prop) (m m' : Machine) : Prop where
  acu : m'.core.acu = m.core.acu
  status : m'.status = m.status
  executed : m'.executed = m.executed
  changes : m'.journal.changes = m.journal.changes
  memory : m.core.memory.AgreeOff own m'.core.memory

/-- Two machines that agree come to the same in a step, if their effects do but for where they go
    on, and if nothing is written to the cells in which the machines differ. -/
theorem Machine.step_agreeOff {own : Nat → Prop} {m m' : Machine} {e e' : Effect}
    (h : m.core.memory.AgreeOff own m'.core.memory) (hactive : m.IsActive)
    (hactive' : m'.IsActive) (hexecuted : m'.executed = m.executed)
    (heffect : m.core.effect = .ok (some e)) (heffect' : m'.core.effect = .ok (some e'))
    (hacu : e'.acu = e.acu) (hwrite : e'.write? = e.write?)
    (hown : ∀ a v, e.write? = some (a, v) → ¬ own a) :
    m.step.2 = .ok () ∧ m'.step.2 = .ok () ∧ m.step.1.AgreeOff own m'.step.1 ∧
      m.step.1.core.pc = e.pc ∧ m'.step.1.core.pc = e'.pc := by
  obtain ⟨hchanged, hmemory⟩ := Core.apply_congr h hwrite hown
  have hchanges := changes_step hactive heffect
  have hchanges' := changes_step hactive' heffect'
  rw [hchanged] at hchanges'
  rw [step_of_effect_some hactive heffect] at hchanges ⊢
  rw [step_of_effect_some hactive' heffect'] at hchanges' ⊢
  refine ⟨rfl, rfl, ⟨?_, rfl, ?_, hchanges'.trans hchanges.symm, hmemory⟩, ?_, ?_⟩
  · exact (Core.acu_apply _ _).trans (hacu.trans (Core.acu_apply _ _).symm)
  · exact congrArg (· + 1) hexecuted
  · exact Core.pc_apply _ _
  · exact Core.pc_apply _ _

/-- An instruction that could be packed does what its packed form does if it is wide. Let it stand
    in the same memory packed and wide, and touch neither of the cells that are different in the
    two. Either a step faults in both with the same fault, or a step succeeds in both: then it
    leaves the same in the accumulator and in all other cells, changes the same cell if any, and
    counts the same; and if it does not branch, it goes on after the instruction in both. -/
theorem Machine.step_of_wide {op : Opcode} {x : Operand} {w : Cell}
    (hpacked : (⟨op, some x⟩ : Instr).encode = .ok (.packed w)) :
    ∃ marker, (⟨op, some x⟩ : Instr).encodeWide = .ok (.wide marker x.value) ∧
      ∀ (c : Core) (m m' : Machine), c.pc + 1 < c.memory.size →
        (∀ a, c.Touches op x a → ¬ c.Own a) →
        m.core = c.holding (.packed w) → m'.core = c.holding (.wide marker x.value) →
        m.IsActive → m'.IsActive → m'.executed = m.executed →
        (∃ f, m.step.2 = .error f ∧ m'.step.2 = .error f) ∨
          (m.step.2 = .ok () ∧ m'.step.2 = .ok () ∧
            m.step.1.AgreeOff c.Own m'.step.1 ∧
            c.GoesOn op x (c.pc + 1) (c.pc + 2) m.step.1.core.pc m'.step.1.core.pc) := by
  obtain ⟨f, hf, -⟩ := Instr.encodeFrom_eq_ok hpacked
  have hwide : (⟨op, some x⟩ : Instr).encodeWide = .ok (.wide f.markerWord x.value) := by
    simp [Instr.encodeWide, Instr.encodeFrom, hf]
  refine ⟨f.markerWord, hwide, ?_⟩
  intro c m m' hroom hown hcore hcore' hactive hactive' hexecuted
  have heffect : m.core.effect = c.effectOf op x (c.pc + 1) :=
    hcore ▸ Core.effect_holding (.inl hpacked) hroom hown
  have heffect' : m'.core.effect = c.effectOf op x (c.pc + 2) :=
    hcore' ▸ Core.effect_holding (.inr hwide) hroom hown
  cases he : c.effectOf op x (c.pc + 1) with
  | error g =>
      rw [he] at heffect
      rw [Core.effectOf_of_error he] at heffect'
      left
      refine ⟨g, ?_, ?_⟩
      · rw [step_of_effect_error hactive heffect]
      · rw [step_of_effect_error hactive' heffect']
  | ok r =>
      have hop : op ≠ .hlt := by
        rintro rfl
        rw [Format.of?_eq_none_iff.2 (.inl rfl)] at hf
        exact absurd hf (by simp)
      obtain ⟨e, rfl, -⟩ := Core.performs_of_effectOf hop he
      obtain ⟨e', he', hacu, hwrite, hpc⟩ := Core.exists_effectOf he (c.pc + 2)
      rw [he] at heffect
      rw [he'] at heffect'
      have hmemory : m.core.memory.AgreeOff c.Own m'.core.memory := by
        rw [hcore, hcore']
        exact (Core.agreeOff_holding c _).trans_symm (Core.agreeOff_holding c _)
      obtain ⟨hok, hok', hagree, hgoes, hgoes'⟩ := step_agreeOff hmemory hactive hactive'
        hexecuted heffect heffect' hacu hwrite fun a v hw => hown a (Core.touches_of_write he hw)
      rw [← hgoes, ← hgoes'] at hpc
      exact .inr ⟨hok, hok', hagree, hpc⟩

/-- `INC [4]` at address 1, packed as 9304 or wide as 9400 and 4, counts up the cell to which the
    cell 4 points. -/
theorem Machine.step_of_wide_inc_indirect :
    let c : Core := { memory := ⟨#[0, 0, 0, 0, 5, 41]⟩, pc := 1 }
    let m : Machine := { core := c.holding (.packed 9304), flags := {} }
    let m' : Machine := { core := c.holding (.wide 9400 4), status := .running, flags := {} }
    (⟨.inc, some ⟨.indirect, 4⟩⟩ : Instr).encode = .ok (.packed 9304) ∧
      m.step.2 = .ok () ∧ m'.step.2 = .ok () ∧
      m.step.1.AgreeOff c.Own m'.step.1 ∧
      m.step.1.core = ⟨⟨#[0, 9304, 0, 0, 5, 42]⟩, 0, 2⟩ ∧
      m'.step.1.core = ⟨⟨#[0, 9400, 4, 0, 5, 42]⟩, 0, 3⟩ := by
  intro c m m'
  have hpacked : (⟨.inc, some ⟨.indirect, 4⟩⟩ : Instr).encode = .ok (.packed 9304) :=
    Instr.read?_eq_whole_iff.1 (by decide +kernel)
  obtain ⟨marker, hwide, hstep⟩ := step_of_wide hpacked
  obtain rfl : marker = 9400 := by
    have h : (⟨.inc, some ⟨.indirect, 4⟩⟩ : Instr).encodeWide = .ok (.wide 9400 4) :=
      (Instr.read?_eq_marker_iff 4).1 (by decide +kernel)
    exact (Encoded.wide.inj (Except.ok.inj (hwide.symm.trans h))).1
  have hown : ∀ a, c.Touches .inc ⟨.indirect, 4⟩ a → ¬ c.Own a := by
    rintro a (⟨-, -, ha⟩ | ⟨hop, -, -⟩ | ⟨-, ha⟩)
    · obtain rfl : a = 4 := (Int.ofNat.inj ha).symm
      simp [Core.Own, c]
    · exact absurd hop (by simp [Opcode.accumulates?])
    · obtain ⟨p, hp, ha⟩ := Memory.names_indirect_iff.1 ha
      obtain rfl : p = 5 := hp.unique (Memory.has_iff (a := 4).2 rfl)
      obtain rfl : a = 5 := (Int.ofNat.inj ha).symm
      simp [Core.Own, c]
  rcases hstep c m m' (by decide) hown rfl rfl (.inl rfl) (.inr rfl) rfl with
    ⟨f, hf, -⟩ | ⟨hok, hok', hagree, -⟩
  · have hsome : m.step.2.toOption = some () := by decide +kernel
    rw [hf] at hsome
    exact absurd hsome (by simp [Except.toOption])
  · exact ⟨hpacked, hok, hok', hagree, by decide +kernel, by decide +kernel⟩

end DecimalMachine
