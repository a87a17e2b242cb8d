import DecimalMachine.Proofs.Machine.Changes
import DecimalMachine.Proofs.Machine.Operand
import DecimalMachine.Proofs.Machine.Recognition
import Mathlib.Algebra.Group.Nat.Defs

set_option autoImplicit false

/-! # The instruction set

What every instruction does to memory and registers, as rules that say nothing about how it is
worked out (`Core.Performs`). There are three kinds of instructions with an operand: those that put
something into the accumulator, those that put something into a cell, and the branches; each opcode
has its line in the table of its kind. Arithmetic is that of the integers, brought back into a cell
modulo `2 ^ 32`, and all that a rule reads it reads from the core before the instruction, also
where the instruction writes over itself or over its pointer.

Whatever effect is computed is the one that the rules allow (`Core.performs_iff`), so a step that
does not fault does what the rules say, and it records just that. -/

namespace DecimalMachine

/-! ## The rules -/

namespace Opcode

/-- What an opcode puts into the accumulator, from what is in it and the value of the operand. -/
def accumulates? : Opcode → Option (Int → Int → Int)
  | cpa => some fun _ v => v
  | add => some fun acu v => acu + v
  | sub => some fun acu v => acu - v
  | mul => some fun acu v => acu * v
  | _ => none

/-- What an opcode puts into the cell of its operand, from what is in the accumulator and in that
    cell. -/
def stores? : Opcode → Option (Int → Int → Int)
  | inc => some fun _ old => old + 1
  | dec => some fun _ old => old - 1
  | sto => some fun acu _ => acu
  | _ => none

/-- When an opcode branches to the address of its operand, by what is in the accumulator. -/
def branches? : Opcode → Option (Int → Prop)
  | bra => some fun _ => True
  | brn => some fun acu => acu < 0
  | brz => some fun acu => acu = 0
  | _ => none

/-- Every opcode with an operand is in one of the tables. -/
theorem kinds {op : Opcode} (h : op ≠ .hlt) :
    (∃ f, op.accumulates? = some f) ∨ (∃ f, op.stores? = some f) ∨
      ∃ p, op.branches? = some p := by
  cases op with
  | hlt => exact absurd rfl h
  | cpa | add | sub | mul => exact .inl ⟨_, rfl⟩
  | inc | dec | sto => exact .inr (.inl ⟨_, rfl⟩)
  | bra | brn | brz => exact .inr (.inr ⟨_, rfl⟩)

end Opcode

namespace Core

/-- At the instruction pointer stands an instruction of some width. -/
inductive Fetches (c : Core) : Instr → Width → Prop
  /-- The word there is the whole instruction, whatever comes after it. -/
  | packed {word : Cell} {i : Instr} (hword : c.memory.Has c.pc word)
      (h : ∀ next, Instr.decode word next = .ok (i, .packed)) : Fetches c i .packed
  /-- The word there and the one after it are the instruction. -/
  | wide {word v : Cell} {i : Instr} (hword : c.memory.Has c.pc word)
      (hv : c.memory.Has (c.pc + 1 : Nat) v)
      (h : Instr.decode word (.ok v) = .ok (i, .wide)) : Fetches c i .wide

/-- What an instruction does to a core, if the instruction after it stands at `next`. -/
inductive Performs (c : Core) (next : Nat) : Instr → Core → Prop
  /-- `HLT` does nothing, and stays where it is. -/
  | halt : Performs c next ⟨.hlt, none⟩ c
  /-- Something is put into the accumulator. -/
  | accumulate {op : Opcode} {f : Int → Int → Int} {x : Operand} {v : Cell}
      (hop : op.accumulates? = some f) (hv : c.memory.Yields x v) :
      Performs c next ⟨op, some x⟩
        { c with acu := Int32.ofInt (f c.acu.toInt v.toInt), pc := next }
  /-- Something is put into the cell that the operand names. -/
  | store {op : Opcode} {f : Int → Int → Int} {x : Operand} {a : Nat} {old : Cell}
      {memory : Memory} (hop : op.stores? = some f) (ha : c.memory.Names x a)
      (hold : c.memory.Has a old)
      (hmemory : c.memory.Sets a (Int32.ofInt (f c.acu.toInt old.toInt)) memory) :
      Performs c next ⟨op, some x⟩ { c with memory, pc := next }
  /-- A branch is taken, to a cell of memory. -/
  | branch {op : Opcode} {p : Int → Prop} {x : Operand} {a : Nat} (hop : op.branches? = some p)
      (hp : p c.acu.toInt) (ha : c.memory.Names x a) (hlt : a < c.memory.size) :
      Performs c next ⟨op, some x⟩ { c with pc := a }
  /-- A branch is not taken, wherever it leads. -/
  | pass {op : Opcode} {p : Int → Prop} {x : Operand} (hop : op.branches? = some p)
      (hp : ¬ p c.acu.toInt) : Performs c next ⟨op, some x⟩ { c with pc := next }

end Core

/-! ## Fetching -/

namespace Instr

theorem decode_eq_packed_iff {word : Cell} {next : Except Fault Cell} {i : Instr} :
    decode word next = .ok (i, .packed) ↔ read? word = some (.whole i) := by
  unfold decode
  cases read? word with
  | none => simp
  | some r =>
      cases r with
      | whole j => simp
      | marker op mode => cases next <;> simp [Except.map]

theorem decode_eq_wide_iff {word : Cell} {next : Except Fault Cell} {i : Instr} :
    decode word next = .ok (i, .wide) ↔
      ∃ op mode v, read? word = some (.marker op mode) ∧ next = .ok v ∧
        ⟨op, some ⟨mode, v⟩⟩ = i := by
  unfold decode
  cases read? word with
  | none => simp
  | some r =>
      cases r with
      | whole j => simp
      | marker op mode =>
          cases next with
          | error => simp [Except.map]
          | ok v =>
              simp only [Except.map, Except.ok.injEq, Prod.mk.injEq, and_true, Option.some.injEq,
                Reading.marker.injEq]
              constructor
              · rintro rfl
                exact ⟨op, mode, v, ⟨rfl, rfl⟩, rfl, rfl⟩
              · rintro ⟨_, _, _, ⟨rfl, rfl⟩, rfl, rfl⟩
                rfl

theorem EncodesAs.halt_or {i : Instr} {e : Encoded} (h : i.EncodesAs e) :
    i = .halt ∨ ∃ op x, i = ⟨op, some x⟩ ∧ op ≠ .hlt := by
  obtain ⟨least, h⟩ := encodesAs_iff.1 h
  obtain ⟨op, _ | x⟩ := i
  · obtain ⟨rfl, -⟩ := encodeFrom_none h
    exact .inl rfl
  · obtain ⟨f, hf, -⟩ := width_of_encodeFrom h
    refine .inr ⟨op, x, rfl, ?_⟩
    rintro rfl
    rw [Format.of?_eq_none_iff.2 (.inl rfl)] at hf
    exact absurd hf (by simp)

end Instr

namespace Core

variable {c c' : Core} {i : Instr} {w : Width} {op : Opcode} {x : Operand} {next : Nat}

theorem fetch_eq_ok_iff : c.fetch = .ok (i, w) ↔ c.Fetches i w := by
  rw [fetch, Fault.bind_eq_ok_iff]
  simp only [Memory.read_eq_ok_iff]
  constructor
  · rintro ⟨word, hword, h⟩
    cases w with
    | packed =>
        refine .packed hword ?_
        intro next
        exact Instr.decode_eq_packed_iff.2 (Instr.decode_eq_packed_iff.1 h)
    | wide =>
        obtain ⟨-, -, v, -, hv, -⟩ := Instr.decode_eq_wide_iff.1 h
        rw [hv] at h
        exact .wide hword (Memory.read_eq_ok_iff.1 hv) h
  · rintro (⟨hword, h⟩ | ⟨hword, hv, h⟩)
    · exact ⟨_, hword, h _⟩
    · refine ⟨_, hword, ?_⟩
      rw [Memory.read_eq_ok_iff.2 hv]
      exact h

/-- Only `HLT` stands in memory without an operand. -/
theorem Fetches.halt_or (h : c.Fetches i w) :
    i = .halt ∨ ∃ op x, i = ⟨op, some x⟩ ∧ op ≠ .hlt := by
  cases h with
  | packed hword h =>
      exact Instr.EncodesAs.halt_or (.inl (Instr.encode_of_decode_packed (h (.ok 0))))
  | wide hword hv h => exact Instr.EncodesAs.halt_or (.inr (Instr.encodeWide_of_decode_wide h))

/-! ## Effects -/

theorem effectOf_of_accumulates {f : Int → Int → Int} (hop : op.accumulates? = some f) :
    c.effectOf op x next =
      (c.memory.value x).map fun v =>
        some ⟨Int32.ofInt (f c.acu.toInt v.toInt), next, none⟩ := by
  cases op with
  | cpa | add | sub | mul =>
      obtain rfl := Option.some.inj hop
      unfold effectOf
      cases c.memory.value x with
      | error => rfl
      | ok v => simp [bind, Except.bind, pure, Except.pure, Except.map]
  | _ => exact absurd hop (by simp [Opcode.accumulates?])

theorem effectOf_of_stores {f : Int → Int → Int} (hop : op.stores? = some f) :
    c.effectOf op x next = do
      let a ← c.memory.address x
      let old ← c.memory.read a
      return some ⟨c.acu, next, some (a, Int32.ofInt (f c.acu.toInt old.toInt))⟩ := by
  cases op with
  | inc | dec | sto =>
      obtain rfl := Option.some.inj hop
      unfold effectOf
      cases ha : c.memory.address x with
      | error => rfl
      | ok a =>
          -- `STO` does not read the cell, but it could
          obtain ⟨old, hold⟩ := Memory.exists_has (Memory.address_eq_ok_iff.1 ha).2
          simp [Memory.read_eq_ok_iff.2 hold, bind, Except.bind, pure, Except.pure]
  | _ => exact absurd hop (by simp [Opcode.stores?])

theorem effectOf_of_branches {p : Int → Prop} (hop : op.branches? = some p)
    (hp : p c.acu.toInt) :
    c.effectOf op x next = (c.memory.address x).map fun a => some ⟨c.acu, a, none⟩ := by
  cases op with
  | bra =>
      unfold effectOf
      cases c.memory.address x <;> rfl
  | brn =>
      obtain rfl := Option.some.inj hop
      have hneg : c.acu < 0 := Int32.lt_iff_toInt_lt.2 hp
      unfold effectOf
      rw [if_pos hneg]
      cases c.memory.address x <;> rfl
  | brz =>
      obtain rfl := Option.some.inj hop
      have hzero : c.acu = 0 := Int32.toInt_inj.1 hp
      unfold effectOf
      rw [if_pos hzero]
      cases c.memory.address x <;> rfl
  | _ => exact absurd hop (by simp [Opcode.branches?])

theorem effectOf_of_not_branches {p : Int → Prop} (hop : op.branches? = some p)
    (hp : ¬ p c.acu.toInt) : c.effectOf op x next = .ok (some ⟨c.acu, next, none⟩) := by
  cases op with
  | bra =>
      obtain rfl := Option.some.inj hop
      exact absurd trivial hp
  | brn =>
      obtain rfl := Option.some.inj hop
      unfold effectOf
      rw [if_neg (mt Int32.lt_iff_toInt_lt.1 hp)]
      rfl
  | brz =>
      obtain rfl := Option.some.inj hop
      unfold effectOf
      rw [if_neg (mt (congrArg Int32.toInt) hp)]
      rfl
  | _ => exact absurd hop (by simp [Opcode.branches?])

/-- Every effect falls under a rule; only `HLT` has none. -/
theorem performs_of_effectOf (hop : op ≠ .hlt) {r : Option Effect}
    (h : c.effectOf op x next = .ok r) :
    ∃ e, r = some e ∧ c.Performs next ⟨op, some x⟩ (c.apply e).1 := by
  rcases Opcode.kinds hop with ⟨f, hf⟩ | ⟨f, hf⟩ | ⟨p, hp⟩
  · rw [effectOf_of_accumulates hf] at h
    obtain ⟨v, hv, rfl⟩ := Fault.map_eq_ok_iff.1 h
    exact ⟨_, rfl, .accumulate hf (Memory.value_eq_ok_iff.1 hv)⟩
  · rw [effectOf_of_stores hf] at h
    obtain ⟨a, ha, h⟩ := Fault.bind_eq_ok_iff.1 h
    obtain ⟨old, hold, h⟩ := Fault.bind_eq_ok_iff.1 h
    obtain ⟨ha, hlt⟩ := Memory.address_eq_ok_iff.1 ha
    obtain rfl := Except.ok.inj h
    exact ⟨_, rfl, .store hf ha (Memory.read_eq_ok_iff.1 hold) (Memory.sets_store hlt)⟩
  · by_cases htaken : p c.acu.toInt
    · rw [effectOf_of_branches hp htaken] at h
      obtain ⟨a, ha, rfl⟩ := Fault.map_eq_ok_iff.1 h
      obtain ⟨ha, hlt⟩ := Memory.address_eq_ok_iff.1 ha
      exact ⟨_, rfl, .branch hp htaken ha hlt⟩
    · rw [effectOf_of_not_branches hp htaken] at h
      obtain rfl := Except.ok.inj h
      exact ⟨_, rfl, .pass hp htaken⟩

/-- What the rules allow is what is computed. -/
theorem performs_iff (hop : op ≠ .hlt) :
    c.Performs next ⟨op, some x⟩ c' ↔
      ∃ e, c.effectOf op x next = .ok (some e) ∧ c' = (c.apply e).1 := by
  constructor
  · -- each rule has its table, and the table says what is computed
    intro h
    cases h with
    | @accumulate _ f _ v hf hv =>
        refine ⟨⟨Int32.ofInt (f c.acu.toInt v.toInt), next, none⟩, ?_, rfl⟩
        rw [effectOf_of_accumulates hf, Memory.value_eq_ok_iff.2 hv]
        rfl
    | @store _ f _ a old _ hf ha hold hmemory =>
        refine ⟨⟨c.acu, next, some (a, Int32.ofInt (f c.acu.toInt old.toInt))⟩, ?_, ?_⟩
        · rw [effectOf_of_stores hf, Memory.address_eq_ok_iff.2 ⟨ha, hold.lt⟩]
          simp only [bind, Except.bind, Memory.read_eq_ok_iff.2 hold]
          rfl
        · rw [hmemory.unique (Memory.sets_store hold.lt)]
          rfl
    | @branch _ _ _ a hp htaken ha hlt =>
        refine ⟨⟨c.acu, a, none⟩, ?_, rfl⟩
        rw [effectOf_of_branches hp htaken, Memory.address_eq_ok_iff.2 ⟨ha, hlt⟩]
        rfl
    | pass hp hnot => exact ⟨_, effectOf_of_not_branches hp hnot, rfl⟩
  · rintro ⟨e, he, rfl⟩
    obtain ⟨_, heq, hperforms⟩ := performs_of_effectOf hop he
    obtain rfl := Option.some.inj heq
    exact hperforms

theorem effect_of_fetches (h : c.Fetches i w) :
    c.effect = match i.operand with
      | none => .ok none
      | some x => c.effectOf i.op x (c.pc + w.cells) := by
  rw [effect, fetch_eq_ok_iff.2 h]
  rfl

end Core

/-! ## What is recorded -/

theorem Core.apply_eq_some_iff {c : Core} {e : Effect} {a : Nat} :
    (c.apply e).2 = some a ↔ (c.apply e).1.memory.cells[a]? ≠ c.memory.cells[a]? := by
  refine ⟨?_, Decidable.not_imp_symm getElem?_apply_of_ne⟩
  intro h
  unfold apply at h ⊢
  split at h
  · exact absurd h (by simp)
  · rename_i b v _
    dsimp only at h
    split at h
    · rename_i hchanged
      obtain rfl := Option.some.inj h
      exact Memory.store_ne_of_changed hchanged
    · exact absurd h (by simp)

namespace Journal

theorem changes_publish (j : Journal) (acu : Cell) (pc : Nat) :
    (j.publish acu pc).changes = j.changes := by
  exact congrArg Std.TreeSet.toList (changed_notifyAll _ _)

/-- What is recorded of one instruction, on an empty journal. -/
theorem changes_record (j : Journal) (changed : Option Nat) :
    (j.clear.record changed).changes = changed.toList := by
  cases changed <;> rfl

end Journal

/-! ## Steps -/

namespace Machine

variable {m : Machine} {i : Instr} {w : Width}

theorem step_of_effect_error (hactive : m.IsActive) {f : Fault} (h : m.core.effect = .error f) :
    m.step = ({ m with status := .faulted f, journal := m.journal.clear }, .error f) := by
  rw [step, execute_of_effect_error (m := { m with journal := m.journal.clear }) hactive h]
  rfl

theorem step_of_effect_none (hactive : m.IsActive) (h : m.core.effect = .ok none) :
    m.step =
      ({ m with status := .halted, executed := m.executed + 1, journal := m.journal.clear },
        .ok ()) := by
  rw [step, execute_of_effect_none (m := { m with journal := m.journal.clear }) hactive h]
  rfl

theorem step_of_effect_some (hactive : m.IsActive) {e : Effect}
    (h : m.core.effect = .ok (some e)) :
    m.step =
      ((perform { m with journal := m.journal.clear } e).publish, .ok ()) := by
  rw [step, execute_of_effect_some (m := { m with journal := m.journal.clear }) hactive h]

theorem changes_step (hactive : m.IsActive) {e : Effect} (h : m.core.effect = .ok (some e)) :
    m.step.1.journal.changes = (m.core.apply e).2.toList := by
  rw [step_of_effect_some hactive h]
  exact (Journal.changes_publish _ _ _).trans (Journal.changes_record _ _)

/-- A step that does not fault does what the instruction at the instruction pointer is to do, and
    that alone: a core is one that the rules allow after it if and only if it is the core of the
    machine now. The step is counted, and just what it changed is recorded. -/
theorem step_of_fetches (hactive : m.IsActive) (hfetch : m.core.Fetches i w)
    (hok : ∀ f, m.step.2 ≠ .error f) :
    m.step.2 = .ok () ∧
    (∀ c, m.core.Performs (m.core.pc + w.cells) i c ↔ c = m.step.1.core) ∧
    m.step.1.status = (if i = .halt then .halted else .running) ∧
    m.step.1.executed.toNat = (m.executed.toNat + 1) % 2 ^ 64 ∧
    (m.step.1.journal.registers = true ↔ i ≠ .halt) ∧
    (∀ a, a ∈ m.step.1.journal.changes ↔
      m.step.1.core.memory.cells[a]? ≠ m.core.memory.cells[a]?) ∧
    m.step.1.journal.changes.length ≤ 1 ∧
    m.step.1.SameSetup m := by
  have heffect := Core.effect_of_fetches hfetch
  rcases hfetch.halt_or with rfl | ⟨op, x, rfl, hop⟩
  · rw [step_of_effect_none hactive heffect]
    refine ⟨rfl, ?_, rfl, UInt64.toNat_add _ _, by simp [Journal.clear], ?_, Nat.zero_le _,
      ⟨rfl, rfl, rfl, rfl, rfl⟩⟩
    · intro c
      constructor
      · rintro ⟨⟩
        rfl
      · rintro rfl
        exact .halt
    · intro a
      simp [Journal.changes_clear]
  · have hne : (⟨op, some x⟩ : Instr) ≠ .halt := by simp [Instr.halt]
    cases he : m.core.effectOf op x (m.core.pc + w.cells) with
    | error f =>
        rw [step_of_effect_error hactive (heffect.trans he)] at hok
        exact absurd rfl (hok f)
    | ok r =>
        obtain ⟨e, rfl, -⟩ := Core.performs_of_effectOf hop he
        have hchanges := changes_step hactive (heffect.trans he)
        rw [step_of_effect_some hactive (heffect.trans he)] at hchanges ⊢
        refine ⟨rfl, ?_, (if_neg hne).symm, UInt64.toNat_add _ _, ?_, ?_, ?_,
          ⟨rfl, rfl, rfl, rfl, rfl⟩⟩
        · intro c
          rw [Core.performs_iff hop]
          constructor
          · rintro ⟨e', he', rfl⟩
            obtain rfl := Option.some.inj (Except.ok.inj (he.symm.trans he'))
            rfl
          · rintro rfl
            exact ⟨e, he, rfl⟩
        · have hregisters := Journal.registers_record m.journal.clear (m.core.apply e).2
          exact iff_of_true ((Journal.registers_publish _ _ _).trans hregisters) hne
        · intro a
          rw [hchanges, Option.mem_toList]
          exact Core.apply_eq_some_iff
        · rw [hchanges]
          cases (m.core.apply e).2 <;> simp

/-- `INC [2]` with the pointer 0 in its cell counts its own word up to that of `INC [3]`. -/
theorem step_of_fetches_own_word :
    let m : Machine := { core := { memory := ⟨#[9302, 5, 0]⟩ }, flags := {} }
    let i : Instr := ⟨.inc, some ⟨.indirect, 2⟩⟩
    m.IsActive ∧ m.core.Fetches i .packed ∧ (∀ f, m.step.2 ≠ .error f) ∧
      (∀ c, m.core.Performs 1 i c ↔ c = ⟨⟨#[9303, 5, 0]⟩, 0, 1⟩) ∧
      m.step.1.executed.toNat = 1 ∧ m.step.1.journal.changes.length ≤ 1 := by
  intro m i
  have hactive : m.IsActive := .inl rfl
  have hfetch : m.core.Fetches i .packed := by
    refine .packed ⟨0, rfl, rfl⟩ ?_
    intro next
    exact Instr.decode_eq_packed_iff.2 (by decide +kernel)
  have hok : ∀ f, m.step.2 ≠ .error f := by
    intro f
    have hstep : m.step.2.toOption = some () := by decide +kernel
    rintro h
    rw [h] at hstep
    exact absurd hstep (by simp [Except.toOption])
  obtain ⟨-, hcore, -, hexecuted, -, -, hlength, -⟩ := step_of_fetches hactive hfetch hok
  refine ⟨hactive, hfetch, hok, ?_, hexecuted, hlength⟩
  intro c
  rw [show (⟨⟨#[9303, 5, 0]⟩, 0, 1⟩ : Core) = m.step.1.core by decide +kernel]
  exact hcore c

end Machine

end DecimalMachine
