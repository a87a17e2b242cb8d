import DecimalMachine.Proofs.Machine.Course
import DecimalMachine.Proofs.Machine.Loading

set_option autoImplicit false

/-! # Changed cells

A list of cells covers a change of memory if every cell outside of it is as it was
(`Memory.Covers`). The addresses that storing values gives back cover it
(`Memory.covers_storeAll`), the new cells cover a change of size (`Memory.covers_resize`), and what
the journal has recorded covers everything that instructions have done since it was cleared
(`Machine.Recorded`), one instruction after the other (`Machine.recorded_execute`) and so in every
move of a run (`Machine.Moves.recorded`). -/

namespace DecimalMachine

/-! ## Covering a change -/

namespace Memory

/-- Between two memories at most the listed cells changed. They are listed in ascending order, and
    all of them are cells of the second memory. -/
structure Covers (changed : List Nat) (m m' : Memory) : Prop where
  ascending : changed.Pairwise (· < ·)
  within : ∀ a ∈ changed, a < m'.size
  others : ∀ a < m'.size, a ∉ changed → m'.cells[a]? = m.cells[a]?

theorem covers_refl (m : Memory) : Covers [] m m :=
  ⟨.nil, fun _ h => absurd h List.not_mem_nil, fun _ _ _ => rfl⟩

/-- All cells of a memory cover any change to it. -/
theorem covers_range (m m' : Memory) : Covers (List.range m'.size) m m' :=
  ⟨List.pairwise_lt_range, fun _ h => List.mem_range.1 h,
    fun _ ha hnot => absurd (List.mem_range.2 ha) hnot⟩

/-! ### Storing -/

theorem lt_of_store_changed {m : Memory} {b : Nat} {v : Cell} (h : (m.store b v).2 = true) :
    b < m.size := by
  unfold store at h
  split at h
  · assumption
  · exact absurd h Bool.false_ne_true

theorem store_ne_of_changed {m : Memory} {a : Nat} {v : Cell}
    (h : (m.store a v).2 = true) : (m.store a v).1.cells[a]? ≠ m.cells[a]? := by
  have hlt : a < m.cells.size := lt_of_store_changed h
  unfold store at h ⊢
  rw [dif_pos hlt] at h ⊢
  dsimp only at h ⊢
  rw [Array.getElem?_set_self, Array.getElem?_eq_getElem hlt]
  intro heq
  rw [Option.some.inj heq, bne_self_eq_false] at h
  exact absurd h Bool.false_ne_true

theorem getElem?_store_of_unchanged {m : Memory} {b : Nat} {v : Cell} {a : Nat}
    (h : (m.store b v).2 = true → a ≠ b) : (m.store b v).1.cells[a]? = m.cells[a]? := by
  unfold store at h ⊢
  split
  · rename_i hb
    rw [dif_pos hb] at h
    by_cases hab : a = b
    · -- the cell itself is reported unless it had this value already
      subst hab
      have hsame : m.cells[a] = v := by
        simpa using mt h (not_not_intro rfl)
      simp [hb, hsame]
    · exact Array.getElem?_set_ne hb (Ne.symm hab)
  · rfl

theorem sublist_storeAll (m : Memory) (writes : List (Nat × Cell)) :
    (m.storeAll writes).2.Sublist (writes.map (·.1)) := by
  induction writes generalizing m with
  | nil => exact .slnil
  | cons w rest ih =>
      obtain ⟨b, v⟩ := w
      unfold storeAll
      dsimp only
      split
      · exact (ih _).cons_cons b
      · exact (ih _).cons b

theorem lt_of_mem_storeAll {m : Memory} {writes : List (Nat × Cell)} {a : Nat}
    (h : a ∈ (m.storeAll writes).2) : a < m.size := by
  induction writes generalizing m with
  | nil => exact absurd h List.not_mem_nil
  | cons w rest ih =>
      obtain ⟨b, v⟩ := w
      have hrest : a ∈ ((m.store b v).1.storeAll rest).2 → a < m.size := by
        intro hmem
        rw [← size_store m b v]
        exact ih hmem
      unfold storeAll at h
      dsimp only at h
      split at h
      · rename_i hchanged
        rcases List.mem_cons.1 h with rfl | hmem
        · exact lt_of_store_changed hchanged
        · exact hrest hmem
      · exact hrest h

theorem getElem?_storeAll_of_not_mem {m : Memory} {writes : List (Nat × Cell)} {a : Nat}
    (h : a ∉ (m.storeAll writes).2) : (m.storeAll writes).1.cells[a]? = m.cells[a]? := by
  induction writes generalizing m with
  | nil => rfl
  | cons w rest ih =>
      obtain ⟨b, v⟩ := w
      unfold storeAll at h ⊢
      dsimp only at h ⊢
      split at h
      · rename_i hchanged
        obtain ⟨hab, hrest⟩ := not_or.1 (mt List.mem_cons.2 h)
        rw [ih hrest]
        exact getElem?_store_of_unchanged fun _ => hab
      · rename_i hchanged
        rw [ih h]
        exact getElem?_store_of_unchanged fun hc => absurd hc hchanged

/-- Storing values from the first cells to the last gives back a list that covers it. -/
theorem covers_storeAll (m : Memory) {writes : List (Nat × Cell)}
    (h : (writes.map (·.1)).Pairwise (· < ·)) :
    Covers (m.storeAll writes).2 m (m.storeAll writes).1 := by
  refine ⟨h.sublist (sublist_storeAll m writes), ?_, fun _ _ => getElem?_storeAll_of_not_mem⟩
  intro a ha
  rw [size_storeAll]
  exact lt_of_mem_storeAll ha

/-! ### Growing and shrinking -/

theorem getElem?_extend_of_lt {σ : Type} [Filler σ] {m : Memory} {a : Nat} (h : a < m.size)
    (n : Nat) (s : σ) : (m.extend n s).1.cells[a]? = m.cells[a]? := by
  induction n generalizing m s with
  | zero => rfl
  | succ n ih =>
      have hlt : a < m.cells.size := h
      unfold extend
      dsimp only
      rw [ih (by simp only [size, Array.size_push]; omega), Array.getElem?_push,
        if_neg (Nat.ne_of_lt hlt)]

/-- A cell that is not cut off keeps its value. -/
theorem getElem?_resize_of_lt {σ : Type} [Filler σ] {m : Memory} {a n : Nat} (h : a < m.size)
    (hn : a < n) (s : σ) : (m.resize n s).1.cells[a]? = m.cells[a]? := by
  have hlt : a < m.cells.size := h
  have hkept : a < size ⟨m.cells.extract 0 n⟩ := by
    simp only [size, Array.size_extract]
    omega
  rw [resize, getElem?_extend_of_lt hkept, Array.getElem?_extract, if_pos (by omega),
    Nat.zero_add]

/-- The new cells cover a change of size; a shorter memory has none. -/
theorem covers_resize {σ : Type} [Filler σ] (m : Memory) (n : Nat) (s : σ) :
    Covers (List.range' m.size (n - m.size)) m (m.resize n s).1 := by
  refine ⟨List.pairwise_lt_range' 1, ?_, ?_⟩
  · intro a ha
    rw [size_resize]
    have hmem := List.mem_range'_1.1 ha
    omega
  · intro a ha hnot
    rw [size_resize] at ha
    rw [List.mem_range'_1] at hnot
    exact getElem?_resize_of_lt (by omega) ha s

end Memory

/-! ## Lists of writes -/

theorem Object.ascending_cells (o : Object) : (o.cells.map (·.1)).Pairwise (· < ·) := by
  refine List.pairwise_map.2 (Std.TreeMap.ordered_keys_toList.imp ?_)
  intro p q h
  exact Nat.compare_eq_lt.1 h

theorem ascending_zipIdx (values : List Cell) :
    ((values.zipIdx.map fun (v, a) => (a, v)).map (·.1)).Pairwise (· < ·) := by
  have haddresses : (values.zipIdx.map fun (v, a) => (a, v)).map (·.1) =
      List.range' 0 values.length := by
    rw [List.map_map, ← List.zipIdx_map_snd]
    rfl
  rw [haddresses]
  exact List.pairwise_lt_range' 1

/-! ## Instructions -/

namespace Core

theorem size_apply (c : Core) (e : Effect) : (c.apply e).1.memory.size = c.memory.size := by
  unfold apply
  split
  · rfl
  · exact Memory.size_store _ _ _

theorem lt_of_apply_eq_some {c : Core} {e : Effect} {a : Nat} (h : (c.apply e).2 = some a) :
    a < c.memory.size := by
  unfold apply at h
  split at h
  · exact absurd h (by simp)
  · rename_i b v _
    dsimp only at h
    split at h
    · rename_i hchanged
      rw [← Option.some.inj h]
      exact Memory.lt_of_store_changed hchanged
    · exact absurd h (by simp)

theorem getElem?_apply_of_ne {c : Core} {e : Effect} {a : Nat} (h : (c.apply e).2 ≠ some a) :
    (c.apply e).1.memory.cells[a]? = c.memory.cells[a]? := by
  unfold apply at h ⊢
  split
  · rfl
  · rename_i b v hwrite
    rw [hwrite] at h
    refine Memory.getElem?_store_of_unchanged ?_
    rintro hchanged rfl
    exact h (if_pos hchanged)

end Core

namespace Journal

theorem mem_changes {j : Journal} {a : Nat} : a ∈ j.changes ↔ j.hasChanged a = true := by
  rw [changes, Std.TreeSet.mem_toList]
  exact Std.TreeSet.mem_iff_contains

theorem ascending_changes (j : Journal) : j.changes.Pairwise (· < ·) := by
  refine Std.TreeSet.ordered_toList.imp ?_
  intro a b h
  exact Nat.compare_eq_lt.1 h

end Journal

namespace Machine

/-- The journal has recorded all that became of a core. -/
structure Recorded (c : Core) (r : Machine) : Prop where
  size : r.core.memory.size = c.memory.size
  within : ∀ a, r.journal.hasChanged a = true → a < c.memory.size
  others : ∀ a, r.journal.hasChanged a = false → r.core.memory.cells[a]? = c.memory.cells[a]?
  registers : r.journal.registers = false → (r.core.acu, r.core.pc) = (c.acu, c.pc)

variable {c : Core} {r : Machine}

/-- An empty journal has recorded all of nothing. -/
theorem recorded_clear (hcore : r.core = c) (m : Machine) (hjournal : r.journal = m.journal.clear) :
    Recorded c r := by
  subst hcore
  refine ⟨rfl, ?_, fun _ _ => rfl, fun _ => rfl⟩
  intro a ha
  rw [hjournal, Journal.hasChanged_clear] at ha
  exact absurd ha Bool.false_ne_true

/-- What a machine has recorded depends on its core and its journal. -/
theorem Recorded.congr (h : Recorded c r) {r' : Machine} (hcore : r'.core = r.core)
    (hjournal : r'.journal = r.journal) : Recorded c r' := by
  constructor
  · rw [hcore]
    exact h.size
  · rw [hjournal]
    exact h.within
  · rw [hcore, hjournal]
    exact h.others
  · rw [hcore, hjournal]
    exact h.registers

/-- To carry out an instruction adds all that it changes to what is recorded. -/
theorem Recorded.perform (h : Recorded c r) (e : Effect) : Recorded c (r.perform e) := by
  have hchanged : ∀ a, (r.perform e).journal.hasChanged a =
      (decide ((r.core.apply e).2 = some a) || r.journal.hasChanged a) :=
    Journal.hasChanged_record _ _
  constructor
  · rw [Machine.perform, Core.size_apply]
    exact h.size
  · intro a ha
    rw [hchanged, Bool.or_eq_true, decide_eq_true_eq] at ha
    rcases ha with hwritten | hbefore
    · rw [← h.size]
      exact Core.lt_of_apply_eq_some hwritten
    · exact h.within a hbefore
  · intro a ha
    rw [hchanged, Bool.or_eq_false_iff, decide_eq_false_iff_not] at ha
    rw [Machine.perform, Core.getElem?_apply_of_ne ha.1]
    exact h.others a ha.2
  · -- the registers are recorded, whatever the effect does to them
    intro hnone
    rw [Machine.perform, Journal.registers_record] at hnone
    exact absurd hnone.symm Bool.false_ne_true

theorem Executes.recorded {r' : Machine} {x : Outcome} (hexecutes : r.Executes r' x)
    (h : Recorded c r) : Recorded c r' := by
  cases hexecutes with
  | run => exact h.perform _
  | _ => exact h.congr rfl rfl

theorem recorded_execute (h : Recorded c r) : Recorded c r.execute.1 :=
  r.executes_execute.recorded h

/-- What is recorded covers the change of memory. -/
theorem Recorded.covers (h : Recorded c r) :
    Memory.Covers r.journal.changes c.memory r.core.memory := by
  refine ⟨Journal.ascending_changes _, ?_, ?_⟩
  · intro a ha
    rw [h.size]
    exact h.within a (Journal.mem_changes.1 ha)
  · intro a _ ha
    exact h.others a (Bool.eq_false_iff.2 (mt Journal.mem_changes.2 ha))

/-- A move of a run adds all that it changes to what is recorded. -/
theorem Moves.recorded {σ : Type} {trip : Tripwire σ} {d e : Course σ} (hmove : Moves trip d e)
    (h : Recorded c d.machine) : Recorded c e.machine := by
  cases hmove with
  | ask =>
      dsimp only
      split
      · exact h.congr rfl rfl
      · exact h
  | execute => exact recorded_execute h
  | _ => exact h.congr rfl rfl

end Machine

end DecimalMachine
