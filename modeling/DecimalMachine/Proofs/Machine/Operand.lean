import DecimalMachine.Machine.Core
import DecimalMachine.Proofs.Machine.Loading

set_option autoImplicit false

/-! # Cells and operands

What an operand means in a memory, as relations: the address that it names (`Memory.Names`) and the
value that it stands for (`Memory.Yields`). An operand may name an address without a cell; it has
an address for the machine if and only if it names that of a cell (`Memory.address_eq_ok_iff`). To
write to a cell is to set it and no other (`Memory.Sets`). -/

namespace DecimalMachine

/-! ## Computations that can fault -/

namespace Fault

variable {α β : Type} {x : Except Fault α} {f : Fault}

theorem bind_eq_ok_iff {k : α → Except Fault β} {b : β} :
    (x >>= k) = .ok b ↔ ∃ a, x = .ok a ∧ k a = .ok b := by
  cases x with
  | ok a => simp [bind, Except.bind]
  | error g => simp [bind, Except.bind]

theorem bind_eq_error_iff {k : α → Except Fault β} :
    (x >>= k) = .error f ↔ x = .error f ∨ ∃ a, x = .ok a ∧ k a = .error f := by
  cases x with
  | ok a => simp [bind, Except.bind]
  | error g => simp [bind, Except.bind]

theorem map_eq_ok_iff {k : α → β} {b : β} : x.map k = .ok b ↔ ∃ a, x = .ok a ∧ k a = b := by
  cases x with
  | ok a => simp [Except.map]
  | error g => simp [Except.map]

theorem map_eq_error_iff {k : α → β} : x.map k = .error f ↔ x = .error f := by
  cases x with
  | ok a => simp [Except.map]
  | error g => simp [Except.map]

end Fault

/-! ## Cells and operands -/

namespace Memory

/-- The cell at an address holds a value. An address may be any integer here, but a negative one,
    or one past the end of memory, has no cell. -/
def Has (m : Memory) (a : Int) (v : Cell) : Prop :=
  ∃ n : Nat, a = n ∧ m.cells[n]? = some v

/-- An integer is not the address of a cell. -/
def Outside (m : Memory) (a : Int) : Prop :=
  a < 0 ∨ m.size ≤ a

/-- The address that an operand names, be it that of a cell or not: the number itself, or, for an
    indirect operand, the number in the cell that it points to. -/
inductive Names (m : Memory) : Operand → Int → Prop
  | immediate (v : Cell) : Names m ⟨.immediate, v⟩ v.toInt
  | direct (v : Cell) : Names m ⟨.direct, v⟩ v.toInt
  | indirect {v p : Cell} (h : m.Has v.toInt p) : Names m ⟨.indirect, v⟩ p.toInt

/-- The value that an operand stands for: an immediate one for itself, any other for what is in
    the cell that it names. -/
inductive Yields (m : Memory) : Operand → Cell → Prop
  | literal (v : Cell) : Yields m ⟨.immediate, v⟩ v
  | cell {x : Operand} {a : Int} {v : Cell} (hmode : x.mode ≠ .immediate) (ha : m.Names x a)
      (hv : m.Has a v) : Yields m x v

/-- Between two memories one cell is set to a value, and all others stay as they are. -/
structure Sets (m : Memory) (a : Int) (v : Cell) (m' : Memory) : Prop where
  size : m'.size = m.size
  cell : m'.Has a v
  others : ∀ b ≠ a, ∀ w, m'.Has b w ↔ m.Has b w

variable {m m' : Memory} {a : Nat} {v w : Cell} {x : Operand} {f : Fault}

theorem has_iff : m.Has a v ↔ m.cells[a]? = some v := by
  constructor
  · rintro ⟨n, hn, h⟩
    obtain rfl : a = n := Int.ofNat.inj hn
    exact h
  · intro h
    exact ⟨a, rfl, h⟩

theorem Has.lt (h : m.Has a v) : a < m.size := by
  exact (Array.getElem?_eq_some_iff.1 (has_iff.1 h)).1

theorem exists_has (h : a < m.size) : ∃ v, m.Has a v := by
  exact ⟨_, has_iff.2 (Array.getElem?_eq_getElem h)⟩

theorem Has.unique {a : Int} (h : m.Has a v) (h' : m.Has a w) : v = w := by
  obtain ⟨n, rfl, hv⟩ := h
  exact Option.some.inj (hv.symm.trans (has_iff.1 h'))

/-! ### Access -/

theorem read_eq_ok_iff : m.read a = .ok v ↔ m.Has a v := by
  rw [has_iff, read]
  cases m.cells[a]? <;> simp

theorem read_eq_error_iff : m.read a = .error f ↔ m.size ≤ a ∧ f = .outside a := by
  rw [read]
  cases h : m.cells[a]? with
  | none => simpa [size, eq_comm] using fun _ => Array.getElem?_eq_none_iff.1 h
  | some v =>
      have hlt : a < m.size := (Array.getElem?_eq_some_iff.1 h).1
      simp [Nat.not_le.2 hlt]

theorem locate_eq_ok_iff : m.locate v = .ok a ↔ v.toInt = a ∧ a < m.size := by
  rw [locate]
  split
  · rename_i h
    simp only [Except.ok.injEq]
    omega
  · simp only [reduceCtorEq, false_iff]
    omega

theorem locate_eq_error_iff :
    m.locate v = .error f ↔ m.Outside v.toInt ∧ f = .outOfRange v.toInt := by
  rw [locate, Outside]
  split
  · simp only [reduceCtorEq, false_iff]
    omega
  · rename_i h
    simp only [Except.error.injEq, eq_comm (a := f)]
    exact ⟨fun hf => ⟨by omega, hf⟩, fun hf => hf.2⟩

/-! ### Operands -/

theorem names_iff_of_ne (hmode : x.mode ≠ .indirect) {b : Int} :
    m.Names x b ↔ x.value.toInt = b := by
  obtain ⟨mode, v⟩ := x
  constructor
  · rintro (_ | _ | _)
    · rfl
    · rfl
    · exact absurd rfl hmode
  · rintro rfl
    cases mode with
    | immediate => exact .immediate v
    | indirect => exact absurd rfl hmode
    | direct => exact .direct v

theorem names_indirect_iff {b : Int} :
    m.Names ⟨.indirect, v⟩ b ↔ ∃ p, m.Has v.toInt p ∧ p.toInt = b := by
  constructor
  · rintro (_ | _ | h)
    exact ⟨_, h, rfl⟩
  · rintro ⟨p, h, rfl⟩
    exact .indirect h

theorem address_of_ne (hmode : x.mode ≠ .indirect) : m.address x = m.locate x.value := by
  obtain ⟨mode, v⟩ := x
  cases mode with
  | immediate => rfl
  | indirect => exact absurd rfl hmode
  | direct => rfl

theorem address_eq_ok_iff : m.address x = .ok a ↔ m.Names x a ∧ a < m.size := by
  by_cases hmode : x.mode = .indirect
  · obtain ⟨_, v⟩ := x
    obtain rfl : _ = Mode.indirect := hmode
    simp only [address, Fault.bind_eq_ok_iff, locate_eq_ok_iff, read_eq_ok_iff,
      names_indirect_iff]
    constructor
    · rintro ⟨n, ⟨hn, -⟩, p, hp, ha, hlt⟩
      exact ⟨⟨p, hn ▸ hp, ha⟩, hlt⟩
    · rintro ⟨⟨p, ⟨n, hn, hp⟩, ha⟩, hlt⟩
      have hp : m.Has n p := has_iff.2 hp
      exact ⟨n, ⟨hn, hp.lt⟩, p, hp, ha, hlt⟩
  · rw [address_of_ne hmode, locate_eq_ok_iff, names_iff_of_ne hmode]

theorem value_of_ne (hmode : x.mode ≠ .immediate) :
    m.value x = (do m.read (← m.address x)) := by
  obtain ⟨mode, v⟩ := x
  cases mode with
  | immediate => exact absurd rfl hmode
  | indirect => rfl
  | direct => rfl

theorem value_eq_ok_iff : m.value x = .ok v ↔ m.Yields x v := by
  by_cases hmode : x.mode = .immediate
  · obtain ⟨_, w⟩ := x
    obtain rfl : _ = Mode.immediate := hmode
    constructor
    · intro h
      obtain rfl : w = v := Except.ok.inj h
      exact .literal w
    · rintro (_ | hne)
      · rfl
      · exact absurd rfl hne
  · simp only [value_of_ne hmode, Fault.bind_eq_ok_iff, address_eq_ok_iff, read_eq_ok_iff]
    constructor
    · rintro ⟨n, ⟨hn, -⟩, hv⟩
      exact .cell hmode hn hv
    · rintro (_ | @⟨_, _, _, -, ha, n, rfl, hv⟩)
      · exact absurd rfl hmode
      · have hv : m.Has n v := has_iff.2 hv
        exact ⟨n, ⟨ha, hv.lt⟩, hv⟩

/-! ### Writing -/

theorem eq_of_has_iff (hsize : m'.size = m.size) (h : ∀ (b : Nat) w, m'.Has b w ↔ m.Has b w) :
    m' = m := by
  obtain ⟨cells⟩ := m
  obtain ⟨cells'⟩ := m'
  rw [mk.injEq]
  refine Array.ext_getElem? ?_
  intro b
  refine Option.ext ?_
  intro w
  rw [← has_iff (m := ⟨cells⟩), ← has_iff (m := ⟨cells'⟩), h]

theorem has_store {b : Nat} :
    (m.store a v).1.Has b w ↔ ∃ old, m.Has b old ∧ (if b = a then v else old) = w := by
  simp only [has_iff, getElem?_store, Option.map_eq_some_iff]

theorem sets_store (h : a < m.size) : m.Sets a v (m.store a v).1 := by
  refine ⟨size_store _ _ _, ?_, ?_⟩
  · obtain ⟨old, hold⟩ := exists_has h
    exact has_store.2 ⟨old, hold, if_pos rfl⟩
  · intro b hb u
    constructor
    · rintro ⟨n, rfl, hn⟩
      obtain ⟨old, hold, rfl⟩ := has_store.1 (has_iff.2 hn)
      rw [if_neg (fun h => hb (congrArg _ h))]
      exact hold
    · rintro ⟨n, rfl, hn⟩
      exact has_store.2 ⟨u, has_iff.2 hn, if_neg (fun h => hb (congrArg _ h))⟩

theorem Sets.unique {m'' : Memory} (h : m.Sets a v m') (h' : m.Sets a v m'') : m' = m'' := by
  refine eq_of_has_iff (h.size.trans h'.size.symm) ?_
  intro b u
  by_cases hb : b = a
  · subst hb
    exact ⟨fun hu => h.cell.unique hu ▸ h'.cell, fun hu => h'.cell.unique hu ▸ h.cell⟩
  · have hne : (b : Int) ≠ a := fun heq => hb (Int.ofNat.inj heq)
    rw [h.others b hne, h'.others b hne]

end Memory

end DecimalMachine
