import DecimalMachine.Machine.Basic
import Std.Data.TreeMap.Lemmas

set_option autoImplicit false

/-! # Memory after writes

Of several writes to a cell the last one counts (`lastWrite?`), both for the table of cells of an
object file and for a memory that the writes are stored in. So a memory that takes an object file
holds what storing its writes one by one would have left (`cells_storeAll_cells`), and where no
cell is written twice it holds every single one of them (`read_of_mem_writes`). An operation that
finds too few cells for what it is given does nothing (`refused_eq_ok_iff`). -/

namespace DecimalMachine

/-! ## The last write -/

/-- The value that the last of some writes to a cell leaves there. -/
def lastWrite? (writes : List (Nat × Cell)) (a : Nat) : Option Cell :=
  writes.reverse.lookup a

@[simp] theorem lastWrite?_nil (a : Nat) : lastWrite? [] a = none := by
  rfl

theorem lastWrite?_cons (b : Nat) (v : Cell) (rest : List (Nat × Cell)) (a : Nat) :
    lastWrite? ((b, v) :: rest) a =
      (lastWrite? rest a).or (if a = b then some v else none) := by
  have hlast : List.lookup a [(b, v)] = if a = b then some v else none := by
    by_cases h : a = b
    · simp [h]
    · simp [List.lookup_cons, beq_eq_false_iff_ne.2 h, h]
  rw [lastWrite?, List.reverse_cons, List.lookup_append, hlast]
  rfl

theorem lastWrite?_eq_none_iff {writes : List (Nat × Cell)} {a : Nat} :
    lastWrite? writes a = none ↔ ∀ v, (a, v) ∉ writes := by
  rw [lastWrite?, List.lookup_eq_none_iff]
  constructor
  · intro h v hmem
    simpa using h _ (List.mem_reverse.2 hmem)
  · intro h p hp
    have hne : a ≠ p.1 := by
      rintro rfl
      exact h p.2 (List.mem_reverse.1 hp)
    simpa using hne

/-- If no cell is written twice, each write is the last one to its cell. -/
theorem lastWrite?_eq_some_of_mem {writes : List (Nat × Cell)}
    (honce : (writes.map (·.1)).Nodup) {a : Nat} {v : Cell} (h : (a, v) ∈ writes) :
    lastWrite? writes a = some v := by
  induction writes with
  | nil => exact absurd h List.not_mem_nil
  | cons w rest ih =>
      obtain ⟨b, u⟩ := w
      rw [List.map_cons, List.nodup_cons] at honce
      rw [lastWrite?_cons]
      rcases List.mem_cons.1 h with heq | hrest
      · obtain ⟨rfl, rfl⟩ := Prod.mk.inj heq
        have hnone : lastWrite? rest a = none :=
          lastWrite?_eq_none_iff.2 fun u hu => honce.1 (List.mem_map.2 ⟨_, hu, rfl⟩)
        simp [hnone]
      · rw [ih honce.2 hrest]
        rfl

/-! ## The cells of an object file -/

namespace Object

theorem getElem?_foldl_insert (writes : List (Nat × Cell)) (t : Std.TreeMap Nat Cell) (a : Nat) :
    (writes.foldl (fun m (a, v) => m.insert a v) t)[a]? = (lastWrite? writes a).or t[a]? := by
  induction writes generalizing t with
  | nil => rfl
  | cons w rest ih =>
      obtain ⟨b, v⟩ := w
      rw [List.foldl_cons, ih, lastWrite?_cons, Std.TreeMap.getElem?_insert, Option.or_assoc]
      by_cases h : a = b
      · simp [h]
      · have hne : compare b a ≠ .eq := fun he => h (Std.LawfulEqCmp.eq_of_compare he).symm
        simp [h, hne]

/-- The table of cells has the last value written to each cell. -/
theorem lastWrite?_cells (o : Object) (a : Nat) :
    lastWrite? o.cells a = lastWrite? o.writes a := by
  have htable := getElem?_foldl_insert o.writes ∅ a
  rw [Std.TreeMap.getElem?_emptyc, Option.or_none] at htable
  rw [← htable, cells]
  generalize o.writes.foldl (fun m (a, v) => m.insert a v) (∅ : Std.TreeMap Nat Cell) = t
  have honce : (t.toList.map (·.1)).Nodup := by
    refine List.pairwise_map.2 (Std.TreeMap.distinct_keys_toList.imp fun {p q} hne heq => hne ?_)
    rw [heq]
    exact Std.ReflCmp.compare_self
  cases hv : t[a]? with
  | some v =>
      exact lastWrite?_eq_some_of_mem honce (Std.TreeMap.mem_toList_iff_getElem?_eq_some.2 hv)
  | none =>
      refine lastWrite?_eq_none_iff.2 ?_
      intro v hmem
      rw [Std.TreeMap.mem_toList_iff_getElem?_eq_some, hv] at hmem
      exact absurd hmem (by simp)

theorem le_foldl_extent (writes : List (Nat × Cell)) (n : Nat) :
    n ≤ writes.foldl (fun n (a, _) => max n (a + 1)) n := by
  induction writes generalizing n with
  | nil => exact Nat.le_refl n
  | cons w rest ih => exact Nat.le_trans (Nat.le_max_left _ _) (ih _)

theorem lt_extent_of_mem {o : Object} {a : Nat} {v : Cell} (h : (a, v) ∈ o.writes) :
    a < o.extent := by
  have hall : ∀ (writes : List (Nat × Cell)) (n : Nat), (a, v) ∈ writes →
      a < writes.foldl (fun n (a, _) => max n (a + 1)) n := by
    intro writes
    induction writes with
    | nil => intro n hmem; exact absurd hmem List.not_mem_nil
    | cons w rest ih =>
        intro n hmem
        rcases List.mem_cons.1 hmem with rfl | hrest
        · exact Nat.lt_of_lt_of_le (Nat.le_max_right n (a + 1)) (le_foldl_extent rest _)
        · exact ih _ hrest
  exact hall o.writes 0 h

end Object

/-! ## Stores -/

namespace Memory

theorem getElem?_store (m : Memory) (b : Nat) (v : Cell) (a : Nat) :
    (m.store b v).1.cells[a]? = m.cells[a]?.map fun old => if a = b then v else old := by
  unfold store
  split
  · rename_i hb
    by_cases h : a = b
    · subst h
      simp [hb]
    · simp [h, Ne.symm h]
  · rename_i hb
    by_cases h : a = b
    · subst h
      simp [Array.getElem?_eq_none (Nat.le_of_not_lt hb)]
    · simp [h]

/-- A memory that writes were stored in holds the last of them at each of its cells. -/
theorem getElem?_storeAll (m : Memory) (writes : List (Nat × Cell)) (a : Nat) :
    (m.storeAll writes).1.cells[a]? =
      m.cells[a]?.map fun old => (lastWrite? writes a).getD old := by
  induction writes generalizing m with
  | nil => simp [storeAll]
  | cons w rest ih =>
      obtain ⟨b, v⟩ := w
      simp only [storeAll, ih, getElem?_store, lastWrite?_cons, Option.map_map]
      congr 1
      funext old
      by_cases h : a = b <;> cases lastWrite? rest a <;> simp [h]

/-- Storing the cells of an object file leaves the same memory as storing its writes in order. -/
theorem cells_storeAll_cells (m : Memory) (o : Object) :
    (m.storeAll o.cells).1.cells = (m.storeAll o.writes).1.cells := by
  refine Array.ext_getElem? ?_
  intro a
  rw [getElem?_storeAll, getElem?_storeAll, Object.lastWrite?_cells]

end Memory

/-! ## Loading -/

namespace Machine

section Refusal

/-- An operation that needs so many cells refuses with its fault if there are fewer. -/
theorem refused_eq_error_iff {α : Type} {size needed : Nat} {f g : Fault} {x : α} :
    (if size < needed then .error g else .ok x : Except Fault α) = .error f ↔
      size < needed ∧ f = g := by
  split
  · rename_i hlt
    rw [Except.error.injEq, and_iff_right hlt]
    exact eq_comm
  · rename_i hroom
    simp [hroom]

theorem refused_eq_ok_iff {α : Type} {size needed : Nat} {g : Fault} {x y : α} :
    (if size < needed then .error g else .ok x : Except Fault α) = .ok y ↔
      needed ≤ size ∧ y = x := by
  split
  · rename_i hlt
    simp [Nat.not_le.2 hlt]
  · rename_i hroom
    rw [Except.ok.injEq, and_iff_right (Nat.le_of_not_lt hroom)]
    exact eq_comm

variable {m m' : Machine} {o : Object} {values : List Cell} {f : Fault}

theorem load_eq_error_iff :
    m.load o = .error f ↔ m.core.memory.size < o.extent ∧ f = .outside (o.extent - 1) :=
  refused_eq_error_iff

theorem load_eq_ok_iff :
    m.load o = .ok m' ↔ o.extent ≤ m.core.memory.size ∧
      m' = tell
        (rewind { m with
          core := { m.core with memory := (m.core.memory.storeAll o.cells).1 }
          start := o.start
          symbols := o.symbols })
        (Journal.memoryEvent (m.core.memory.storeAll o.cells).2 ++ [.labelsChanged]) :=
  refused_eq_ok_iff

theorem setMemory_eq_error_iff :
    m.setMemory values = .error f ↔
      m.core.memory.size < values.length ∧ f = .outside (values.length - 1) :=
  refused_eq_error_iff

theorem setMemory_eq_ok_iff :
    m.setMemory values = .ok m' ↔ values.length ≤ m.core.memory.size ∧
      m' = tell
        { m with
          core := { m.core with
            memory := (m.core.memory.storeAll (values.zipIdx.map fun (v, a) => (a, v))).1 } }
        (Journal.memoryEvent
          (m.core.memory.storeAll (values.zipIdx.map fun (v, a) => (a, v))).2) :=
  refused_eq_ok_iff

end Refusal

/-- An object file is loaded if all of its cells lie in memory. -/
theorem load_eq_ok {m : Machine} {o : Object} (hroom : o.extent ≤ m.core.memory.size) :
    ∃ m', m.load o = .ok m' ∧ m'.symbols = o.symbols ∧
      m'.core.memory.cells = (m.core.memory.storeAll o.writes).1.cells := by
  rw [← Memory.cells_storeAll_cells]
  exact ⟨_, load_eq_ok_iff.2 ⟨hroom, rfl⟩, rfl, rfl⟩

/-- Where no cell is written twice, a loaded object file leaves the value of each of its writes. -/
theorem read_of_mem_writes {m m' : Machine} {o : Object}
    (hroom : o.extent ≤ m.core.memory.size)
    (hcells : m'.core.memory.cells = (m.core.memory.storeAll o.writes).1.cells)
    (honce : (o.writes.map (·.1)).Nodup) {a : Nat} {v : Cell} (h : (a, v) ∈ o.writes) :
    m'.core.memory.read a = .ok v := by
  have hlt : a < m.core.memory.cells.size := Nat.lt_of_lt_of_le (Object.lt_extent_of_mem h) hroom
  have hcell : m'.core.memory.cells[a]? = some v := by
    rw [hcells, Memory.getElem?_storeAll, lastWrite?_eq_some_of_mem honce h]
    simp [hlt]
  simp [Memory.read, hcell]

end Machine

end DecimalMachine
