import DecimalMachine.Proofs.Machine.InPlace
import DecimalMachine.Proofs.Machine.InstructionSet

set_option autoImplicit false

/-! # Faults

When a step faults, and with what (`Core.Faults`). There are four ways to it, in the order in which
an instruction comes to them: there is no cell at the instruction pointer, the word there starts no
instruction, it asks for a cell after the last one, or the operand means no cell and the
instruction looks for it (`Core.Evaluates`). Each of them supposes that the ones before it are
passed, so no two of them hold at once.

A machine that faults is as it was (`Machine.step_eq_error_iff`), also if it does not work an
instruction out before it does anything of it (`Machine.stepInPlace`). -/

namespace DecimalMachine

/-! ## The rules -/

/-- An operand means no cell, and the fault that this is. -/
inductive Memory.Misses (m : Memory) : Operand → Fault → Prop
  /-- The pointer of an indirect operand is in no cell. -/
  | pointer {v : Cell} (h : m.Outside v.toInt) : Misses m ⟨.indirect, v⟩ (.outOfRange v.toInt)
  /-- The operand names an address, but not that of a cell. -/
  | target {x : Operand} {a : Int} (ha : m.Names x a) (h : m.Outside a) :
      Misses m x (.outOfRange a)

namespace Core

/-- An opcode looks for the cell of its operand: to read it, to write it, or to go on from it. -/
inductive Evaluates (c : Core) (x : Operand) : Opcode → Prop
  | read {op : Opcode} {f : Int → Int → Int} (hop : op.accumulates? = some f)
      (hmode : x.mode ≠ .immediate) : Evaluates c x op
  | write {op : Opcode} {f : Int → Int → Int} (hop : op.stores? = some f) : Evaluates c x op
  | branch {op : Opcode} {p : Int → Prop} (hop : op.branches? = some p) (hp : p c.acu.toInt) :
      Evaluates c x op

/-- The instruction at the instruction pointer cannot be executed. -/
inductive Faults (c : Core) : Fault → Prop
  /-- There is no cell at the instruction pointer. -/
  | pc (h : c.memory.size ≤ c.pc) : Faults c (.outside c.pc)
  /-- The word there starts no instruction, whatever comes after it. -/
  | word {word : Cell} (hword : c.memory.Has c.pc word)
      (h : ∀ v r, Instr.decode word (.ok v) ≠ .ok r) : Faults c (.unrecognized word)
  /-- The word there is a marker in the last cell. -/
  | marker {word v : Cell} {i : Instr} (hword : c.memory.Has c.pc word)
      (h : Instr.decode word (.ok v) = .ok (i, .wide)) (hlast : c.memory.size = c.pc + 1) :
      Faults c (.outside (c.pc + 1))
  /-- The cell of the operand is looked for, and there is none. -/
  | operand {op : Opcode} {x : Operand} {w : Width} {f : Fault}
      (hfetch : c.Fetches ⟨op, some x⟩ w) (hx : c.Evaluates x op) (hf : c.memory.Misses x f) :
      Faults c f

end Core

namespace Core

theorem Evaluates.ne_hlt {c : Core} {x : Operand} {op : Opcode} (h : c.Evaluates x op) :
    op ≠ .hlt := by
  rintro rfl
  cases h with
  | read hop => exact absurd hop (by simp [Opcode.accumulates?])
  | write hop => exact absurd hop (by simp [Opcode.stores?])
  | branch hop => exact absurd hop (by simp [Opcode.branches?])

end Core

/-! ## Operands -/

namespace Memory

variable {m : Memory} {x : Operand} {f : Fault}

theorem outside_iff_of_nat {a : Nat} : m.Outside a ↔ m.size ≤ a := by
  unfold Outside
  omega

theorem address_eq_error_iff : m.address x = .error f ↔ m.Misses x f := by
  by_cases hmode : x.mode = .indirect
  · obtain ⟨_, v⟩ := x
    obtain rfl : _ = Mode.indirect := hmode
    simp only [address, Fault.bind_eq_error_iff, locate_eq_ok_iff, locate_eq_error_iff,
      read_eq_ok_iff, read_eq_error_iff]
    constructor
    · rintro (⟨hout, rfl⟩ | ⟨p, ⟨hp, hlt⟩, ⟨hsize, -⟩ | ⟨u, hu, hout, rfl⟩⟩)
      · exact .pointer hout
      · omega
      · exact .target (names_indirect_iff.2 ⟨u, hp ▸ hu, rfl⟩) hout
    · -- a pointer that can be read is in a cell, so only one of the two look-ups fails
      rintro (hout | ⟨ha, hout⟩)
      · exact .inl ⟨hout, rfl⟩
      · obtain ⟨u, ⟨p, hp, hu⟩, rfl⟩ := names_indirect_iff.1 ha
        have hu : m.Has p u := has_iff.2 hu
        exact .inr ⟨p, ⟨hp, hu.lt⟩, .inr ⟨u, hu, hout, rfl⟩⟩
  · rw [address_of_ne hmode, locate_eq_error_iff]
    constructor
    · rintro ⟨hout, rfl⟩
      exact .target ((names_iff_of_ne hmode).2 rfl) hout
    · rintro (hout | ⟨ha, hout⟩)
      · exact absurd rfl hmode
      · obtain rfl := (names_iff_of_ne hmode).1 ha
        exact ⟨hout, rfl⟩

theorem value_eq_error_iff :
    m.value x = .error f ↔ x.mode ≠ .immediate ∧ m.Misses x f := by
  by_cases hmode : x.mode = .immediate
  · obtain ⟨_, v⟩ := x
    obtain rfl : _ = Mode.immediate := hmode
    simp [value]
  · rw [value_of_ne hmode, Fault.bind_eq_error_iff, address_eq_error_iff]
    constructor
    · rintro (h | ⟨a, ha, h⟩)
      · exact ⟨hmode, h⟩
      · -- an address that is found is that of a cell
        have hlt := (address_eq_ok_iff.1 ha).2
        exact absurd (read_eq_error_iff.1 h).1 (Nat.not_le.2 hlt)
    · exact fun h => .inl h.2

theorem Misses.outside (h : m.Misses x f) : ∃ a, f = .outOfRange a ∧ m.Outside a := by
  cases h with
  | pointer hout => exact ⟨_, rfl, hout⟩
  | target ha hout => exact ⟨_, rfl, hout⟩

end Memory

/-! ## Instructions -/

namespace Instr

theorem decode_eq_error_iff {word : Cell} {next : Except Fault Cell} {f : Fault} :
    decode word next = .error f ↔
      (read? word = none ∧ f = .unrecognized word) ∨
        (∃ op mode, read? word = some (.marker op mode)) ∧ next = .error f := by
  unfold decode
  cases read? word with
  | none => simp [eq_comm]
  | some r =>
      cases r with
      | whole i => simp
      | marker op mode => simpa using Fault.map_eq_error_iff

theorem read?_eq_none_iff_decode {word : Cell} :
    read? word = none ↔ ∀ v r, decode word (.ok v) ≠ .ok r := by
  unfold decode
  cases read? word with
  | none => simp
  | some r => cases r <;> simp [Except.map]

theorem exists_marker_iff_decode {word : Cell} :
    (∃ op mode, read? word = some (.marker op mode)) ↔
      ∃ v i, decode word (.ok v) = .ok (i, .wide) := by
  simp only [decode_eq_wide_iff]
  constructor
  · rintro ⟨op, mode, h⟩
    exact ⟨0, _, op, mode, 0, h, rfl, rfl⟩
  · rintro ⟨v, i, op, mode, -, h, -⟩
    exact ⟨op, mode, h⟩

end Instr

namespace Core

variable {c : Core} {op : Opcode} {x : Operand} {next : Nat} {f : Fault}

theorem effectOf_of_stores_eq_error_iff {g : Int → Int → Int} (hop : op.stores? = some g) :
    c.effectOf op x next = .error f ↔ c.memory.Misses x f := by
  rw [effectOf_of_stores hop, Fault.bind_eq_error_iff, Memory.address_eq_error_iff]
  constructor
  · rintro (h | ⟨a, ha, h⟩)
    · exact h
    · -- once there is a cell, it can be read
      obtain ⟨old, hold⟩ := Memory.exists_has (Memory.address_eq_ok_iff.1 ha).2
      rw [Memory.read_eq_ok_iff.2 hold] at h
      exact absurd h (by simp [bind, Except.bind, pure, Except.pure])
  · exact .inl

/-- An opcode with an operand faults if it looks for a cell and there is none, and for no other
    reason. -/
theorem effectOf_eq_error_iff (hop : op ≠ .hlt) :
    c.effectOf op x next = .error f ↔ c.Evaluates x op ∧ c.memory.Misses x f := by
  constructor
  · intro h
    rcases Opcode.kinds hop with ⟨g, hg⟩ | ⟨g, hg⟩ | ⟨p, hp⟩
    · rw [effectOf_of_accumulates hg, Fault.map_eq_error_iff, Memory.value_eq_error_iff] at h
      exact ⟨.read hg h.1, h.2⟩
    · exact ⟨.write hg, (effectOf_of_stores_eq_error_iff hg).1 h⟩
    · by_cases htaken : p c.acu.toInt
      · rw [effectOf_of_branches hp htaken, Fault.map_eq_error_iff,
          Memory.address_eq_error_iff] at h
        exact ⟨.branch hp htaken, h⟩
      · rw [effectOf_of_not_branches hp htaken] at h
        exact absurd h (by simp)
  · rintro ⟨hg | hg | ⟨hp, htaken⟩, hf⟩
    · rw [effectOf_of_accumulates hg, Fault.map_eq_error_iff, Memory.value_eq_error_iff]
      exact ⟨‹_›, hf⟩
    · exact (effectOf_of_stores_eq_error_iff hg).2 hf
    · rw [effectOf_of_branches hp htaken, Fault.map_eq_error_iff, Memory.address_eq_error_iff]
      exact hf

/-- Fetching faults in three ways. -/
theorem fetch_eq_error_iff :
    c.fetch = .error f ↔
      (c.memory.size ≤ c.pc ∧ f = .outside c.pc) ∨
        ∃ word, c.memory.Has c.pc word ∧
          ((Instr.read? word = none ∧ f = .unrecognized word) ∨
            (∃ op mode, Instr.read? word = some (.marker op mode)) ∧
              c.memory.size = c.pc + 1 ∧ f = .outside (c.pc + 1)) := by
  rw [fetch, Fault.bind_eq_error_iff, Memory.read_eq_error_iff]
  refine or_congr_right (exists_congr fun word => ?_)
  rw [Memory.read_eq_ok_iff, Instr.decode_eq_error_iff, Memory.read_eq_error_iff]
  refine and_congr_right fun hword => or_congr_right (and_congr_right fun _ => ?_)
  have hlt := hword.lt
  refine and_congr_left fun _ => ?_
  omega

theorem effect_eq_error_iff : c.effect = .error f ↔ c.Faults f := by
  rw [effect, Fault.bind_eq_error_iff, fetch_eq_error_iff]
  constructor
  · rintro ((⟨hpc, rfl⟩ | ⟨word, hword, ⟨hnone, rfl⟩ | ⟨hmarker, hlast, rfl⟩⟩) |
      ⟨⟨i, w⟩, hfetch, h⟩)
    · exact .pc hpc
    · exact .word hword (Instr.read?_eq_none_iff_decode.1 hnone)
    · obtain ⟨v, i, hdecode⟩ := Instr.exists_marker_iff_decode.1 hmarker
      exact .marker hword hdecode hlast
    · have hfetch := fetch_eq_ok_iff.1 hfetch
      rcases hfetch.halt_or with rfl | ⟨op, x, rfl, hop⟩
      · exact absurd h (by simp [Instr.halt, pure, Except.pure])
      · obtain ⟨hx, hf⟩ := (effectOf_eq_error_iff hop).1 h
        exact .operand hfetch hx hf
  · rintro (hpc | ⟨hword, h⟩ | ⟨hword, h, hlast⟩ | ⟨hfetch, hx, hf⟩)
    · exact .inl (.inl ⟨hpc, rfl⟩)
    · exact .inl (.inr ⟨_, hword, .inl ⟨Instr.read?_eq_none_iff_decode.2 h, rfl⟩⟩)
    · have hmarker := Instr.exists_marker_iff_decode.2 ⟨_, _, h⟩
      exact .inl (.inr ⟨_, hword, .inr ⟨hmarker, hlast, rfl⟩⟩)
    · refine .inr ⟨_, fetch_eq_ok_iff.2 hfetch, ?_⟩
      exact (effectOf_eq_error_iff hx.ne_hlt).2 ⟨hx, hf⟩

end Core

/-! ## Steps -/

/-- An address outside of memory is reported as one, also where it is too great to be reported as
    it is. -/
theorem Core.Faults.outside {c : Core} {a : Int} (h : c.Faults (.outOfRange a))
    (hsize : c.memory.size ≤ Fault.maxAddress) : c.memory.Outside a := by
  have hnat : ∀ n, c.memory.size ≤ n → Fault.outside n = .outOfRange a → c.memory.Outside a := by
    intro n hn heq
    obtain rfl := Fault.outOfRange.inj heq
    exact Memory.outside_iff_of_nat.2 (Nat.le_min.2 ⟨hn, hsize⟩)
  generalize hf : Fault.outOfRange a = f at h
  cases h with
  | pc hpc => exact hnat _ hpc hf.symm
  | word => exact absurd hf (by simp)
  | marker hword hdecode hlast => exact hnat _ (Nat.le_of_eq hlast) hf.symm
  | operand hfetch hx hmiss =>
      obtain ⟨b, rfl, hout⟩ := hmiss.outside
      obtain rfl := Fault.outOfRange.inj hf
      exact hout

/-- A step faults if and only if the instruction at the instruction pointer cannot be executed,
    and with that fault. The machine is then as it was, with nothing recorded and nothing told, and
    only its status says that it has faulted. An address that the fault names is not that of a cell,
    as long as memory is no greater than what faults can name. All this holds as well of a step that
    reads and writes in place, and leaves what it has written when it breaks off. -/
theorem Machine.step_eq_error_iff {m : Machine} (hactive : m.IsActive) (f : Fault) :
    (m.step.2 = .error f ↔ m.core.Faults f) ∧
    (m.step.2 = .error f →
      m.step.1 = { m with status := .faulted f, journal := m.journal.clear } ∧
      m.step.1.journal.changes = [] ∧ m.step.1.journal.registers = false ∧
      m.step.1.journal.inboxes = m.journal.inboxes ∧
      (m.core.memory.size ≤ Fault.maxAddress →
        ∀ a, f = .outOfRange a → m.core.memory.Outside a)) ∧
    m.stepInPlace = m.step := by
  have hiff : m.step.2 = .error f ↔ m.core.Faults f := by
    rw [← Core.effect_eq_error_iff]
    cases h : m.core.effect with
    | error g => simp [step_of_effect_error hactive h]
    | ok r =>
        cases r with
        | none => simp [step_of_effect_none hactive h]
        | some e => simp [step_of_effect_some hactive h]
  refine ⟨hiff, ?_, m.stepInPlace_eq⟩
  intro herror
  have hfaults := hiff.1 herror
  have hstep := step_of_effect_error hactive (Core.effect_eq_error_iff.2 hfaults)
  rw [hstep]
  refine ⟨rfl, rfl, rfl, rfl, ?_⟩
  rintro hsize a rfl
  exact hfaults.outside hsize

/-- `STO [1]` with -7 in the cell of its pointer. -/
theorem Machine.step_eq_error_iff_negative_address :
    let m : Machine := { core := { memory := ⟨#[9321, -7]⟩ }, flags := {} }
    m.IsActive ∧ m.core.Faults (.outOfRange (-7)) ∧ m.step.2 = .error (.outOfRange (-7)) ∧
      m.step.1 = { m with status := .faulted (.outOfRange (-7)), journal := m.journal.clear } ∧
      m.core.memory.Outside (-7) ∧ m.stepInPlace = m.step := by
  intro m
  have hactive : m.IsActive := .inl rfl
  have hfetch : m.core.Fetches ⟨.sto, some ⟨.indirect, 1⟩⟩ .packed := by
    refine .packed ⟨0, rfl, rfl⟩ ?_
    intro next
    exact Instr.decode_eq_packed_iff.2 (by decide +kernel)
  have hnames : m.core.memory.Names ⟨.indirect, 1⟩ (-7) := by
    have hpointer : m.core.memory.Has (Int32.toInt 1) (-7) := ⟨1, rfl, rfl⟩
    exact .indirect hpointer
  have hfaults : m.core.Faults (.outOfRange (-7)) :=
    .operand hfetch (.write rfl) (.target hnames (.inl (by decide)))
  obtain ⟨hiff, hintact, hinPlace⟩ := step_eq_error_iff hactive (.outOfRange (-7))
  have herror := hiff.2 hfaults
  obtain ⟨hstep, -, -, -, houtside⟩ := hintact herror
  exact ⟨hactive, hfaults, herror, hstep, houtside (by decide) _ rfl, hinPlace⟩

end DecimalMachine
