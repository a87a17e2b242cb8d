import DecimalMachine.Proofs.Assembly.Extent
import DecimalMachine.Proofs.Machine.Changes
import Mathlib.Algebra.Group.Nat.Defs
import Mathlib.Data.List.Sort
import Mathlib.Order.Bounds.Defs

set_option autoImplicit false

/-! # Loading as a replay of writes

To load a program is to replay its writes on memory, or to do nothing at all. Loading decides by the
extent of the program, once and before it writes; the writes that it then makes could fail one by
one and would leave a memory that is half written (`Memory.overwrite`). They never do: what makes
the extent too great is one of the writes (`Object.lt_extent_iff`), so loading comes to
the same whether its writes are taken to fail or not (`Machine.loadInPlace_eq`). The cells it tells
are those in which memory before and after it differ (`Memory.changed_storeAll`), as the table of
cells that it goes through has each of them once. -/

namespace DecimalMachine

namespace Memory

variable {m : Memory}

/-! ## Writes that can fail -/

/-- A memory with values written one after the other up to the first write that fails, and the
    addresses where that changed the cell. -/
def overwrite (m : Memory) : List (Nat × Cell) → Memory × Except Fault (List Nat)
  | [] => (m, .ok [])
  | (a, v) :: rest =>
      match m.write a v with
      | .error f => (m, .error f)
      | .ok (next, changed) =>
          let (last, others) := next.overwrite rest
          (last, others.map fun others => if changed then a :: others else others)

/-- Writes within memory do not fail. -/
theorem overwrite_eq {writes : List (Nat × Cell)} (h : ∀ a v, (a, v) ∈ writes → a < m.size) :
    m.overwrite writes = ((m.storeAll writes).1, .ok (m.storeAll writes).2) := by
  induction writes generalizing m with
  | nil => rfl
  | cons w rest ih =>
      obtain ⟨b, v⟩ := w
      have hwrite : m.write b v = .ok (m.store b v) := if_pos (h b v List.mem_cons_self)
      have hrest := ih (m := (m.store b v).1) fun a u hmem => by
        rw [size_store]
        exact h a u (List.mem_cons_of_mem _ hmem)
      simp only [overwrite, storeAll, hwrite, hrest]
      rfl

/-! ## Cells that differ -/

/-- The cells in which a later memory differs from an earlier one, in ascending order. -/
def differing (m m' : Memory) : List Nat :=
  (List.range m'.size).filter fun a => m'.cells[a]? != m.cells[a]?

theorem mem_differing {m' : Memory} {a : Nat} :
    a ∈ m.differing m' ↔ a < m'.size ∧ m'.cells[a]? ≠ m.cells[a]? := by
  simp [differing]

/-- No cell is given back that has its old value, if none is written twice. -/
theorem getElem?_storeAll_ne_of_mem {writes : List (Nat × Cell)}
    (hnodup : (writes.map (·.1)).Nodup) {a : Nat} (h : a ∈ (m.storeAll writes).2) :
    (m.storeAll writes).1.cells[a]? ≠ m.cells[a]? := by
  induction writes generalizing m with
  | nil => exact absurd h List.not_mem_nil
  | cons w rest ih =>
      obtain ⟨b, v⟩ := w
      rw [List.map_cons, List.nodup_cons] at hnodup
      have hrest : ∀ a, a ∈ ((m.store b v).1.storeAll rest).2 → a ∈ rest.map (·.1) :=
        fun a hmem => (sublist_storeAll _ rest).subset hmem
      have hlater : a ∈ ((m.store b v).1.storeAll rest).2 →
          ((m.store b v).1.storeAll rest).1.cells[a]? ≠ m.cells[a]? := by
        intro hmem
        have hab : a ≠ b := by
          rintro rfl
          exact hnodup.1 (hrest a hmem)
        have hstore : (m.store b v).1.cells[a]? = m.cells[a]? :=
          getElem?_store_of_unchanged fun _ => hab
        rw [← hstore]
        exact ih hnodup.2 hmem
      unfold storeAll at h ⊢
      dsimp only at h ⊢
      split at h
      · rename_i hchanged
        rcases List.mem_cons.1 h with rfl | hmem
        · -- the later writes leave the cell alone, as none of them is to its address
          rw [getElem?_storeAll_of_not_mem fun hmem => hnodup.1 (hrest _ hmem)]
          exact store_ne_of_changed hchanged
        · exact hlater hmem
      · exact hlater h

/-- To store values from the first cells to the last gives back the cells that differ after it. -/
theorem changed_storeAll (m : Memory) {writes : List (Nat × Cell)}
    (h : (writes.map (·.1)).Pairwise (· < ·)) :
    (m.storeAll writes).2 = m.differing (m.storeAll writes).1 := by
  obtain ⟨hascending, hwithin, hothers⟩ := covers_storeAll m h
  -- two ascending lists with the same members are the same list
  refine hascending.eq_of_mem_iff (List.pairwise_lt_range.filter _) ?_
  intro a
  rw [mem_differing]
  constructor
  · intro ha
    exact ⟨hwithin a ha, getElem?_storeAll_ne_of_mem h.nodup ha⟩
  · rintro ⟨hlt, hne⟩
    by_contra hnot
    exact hne (hothers a hlt hnot)

end Memory

/-! ## The greatest address written -/

namespace Object

/-- The extent is set by one of the writes, if it does not stay what it was at the start. -/
theorem foldl_extent_cases (writes : List (Nat × Cell)) (n : Nat) :
    writes.foldl (fun n (a, _) => max n (a + 1)) n = n ∨
      ∃ a v, (a, v) ∈ writes ∧ writes.foldl (fun n (a, _) => max n (a + 1)) n = a + 1 := by
  induction writes generalizing n with
  | nil => exact .inl rfl
  | cons w rest ih =>
      obtain ⟨b, u⟩ := w
      rcases ih (max n (b + 1)) with heq | ⟨a, v, hmem, heq⟩
      · rcases Nat.le_total n (b + 1) with hle | hle
        · exact .inr ⟨b, u, List.mem_cons_self, heq.trans (Nat.max_eq_right hle)⟩
        · exact .inl (heq.trans (Nat.max_eq_left hle))
      · exact .inr ⟨a, v, List.mem_cons_of_mem _ hmem, heq⟩

/-- The addresses that an object file writes. -/
def addresses (o : Object) : Set Nat :=
  { a | ∃ v, (a, v) ∈ o.writes }

theorem isGreatest_addresses {o : Object} (h : 0 < o.extent) :
    IsGreatest o.addresses (o.extent - 1) := by
  constructor
  · rcases foldl_extent_cases o.writes 0 with hzero | ⟨a, v, hmem, heq⟩
    · exact absurd hzero (Nat.ne_of_gt h)
    · have hlast : o.extent - 1 = a := by
        rw [extent, heq, Nat.add_sub_cancel]
      rw [hlast]
      exact ⟨v, hmem⟩
  · rintro a ⟨v, hmem⟩
    exact Nat.le_sub_one_of_lt (lt_extent_of_mem hmem)

theorem mem_addresses_of_mem_cells {o : Object} {a : Nat} {v : Cell} (h : (a, v) ∈ o.cells) :
    a ∈ o.addresses := by
  by_contra hnot
  have hnone : lastWrite? o.cells a = none := by
    rw [lastWrite?_cells, lastWrite?_eq_none_iff]
    exact fun u hu => hnot ⟨u, hu⟩
  exact lastWrite?_eq_none_iff.1 hnone v h

/-- The extent goes past an address if and only if something is written there or behind it. -/
theorem lt_extent_iff {o : Object} {n : Nat} : n < o.extent ↔ ∃ a ∈ o.addresses, n ≤ a := by
  constructor
  · intro h
    have hgreatest := isGreatest_addresses (Nat.zero_lt_of_lt h)
    exact ⟨o.extent - 1, hgreatest.1, Nat.le_sub_one_of_lt h⟩
  · rintro ⟨a, ⟨v, hmem⟩, hle⟩
    exact Nat.lt_of_le_of_lt hle (lt_extent_of_mem hmem)

end Object

theorem Fault.outside_of_le {a : Nat} (h : a ≤ maxAddress) : outside a = .outOfRange a := by
  rw [outside, Nat.min_eq_left h]

namespace Machine

/-! ## Programs and memory in place -/

/-- The machine that an operation leaves, which refuses by leaving it as it is. -/
def orUnchanged (m : Machine) : Except Fault Machine → Machine × Except Fault Unit
  | .ok m' => (m', .ok ())
  | .error f => (m, .error f)

/-- Loading with writes that can fail: a failure leaves what was written before it. -/
def loadInPlace (m : Machine) (o : Object) : Machine × Except Fault Unit :=
  if m.core.memory.size < o.extent then (m, .error (.outside (o.extent - 1)))
  else
    match m.core.memory.overwrite o.cells with
    | (memory, .error f) => ({ m with core := { m.core with memory } }, .error f)
    | (memory, .ok changed) =>
        let m := { m with core := { m.core with memory }, start := o.start, symbols := o.symbols }
        (m.rewind.tell (Journal.memoryEvent changed ++ [.labelsChanged]), .ok ())

/-- Setting the first cells with writes that can fail. -/
def setMemoryInPlace (m : Machine) (values : List Cell) : Machine × Except Fault Unit :=
  if m.core.memory.size < values.length then (m, .error (.outside (values.length - 1)))
  else
    match m.core.memory.overwrite (values.zipIdx.map fun (v, a) => (a, v)) with
    | (memory, .error f) => ({ m with core := { m.core with memory } }, .error f)
    | (memory, .ok changed) =>
        let m := { m with core := { m.core with memory } }
        (m.tell (Journal.memoryEvent changed), .ok ())

variable {m m' : Machine} {o : Object} {values : List Cell}

theorem loadInPlace_eq (m : Machine) (o : Object) :
    m.loadInPlace o = m.orUnchanged (m.load o) := by
  unfold loadInPlace load
  split
  · rfl
  · rename_i hroom
    have hwithin : ∀ a v, (a, v) ∈ o.cells → a < m.core.memory.size := by
      intro a v hmem
      have hlt := Object.lt_extent_iff.2 ⟨a, Object.mem_addresses_of_mem_cells hmem, Nat.le_refl a⟩
      omega
    rw [Memory.overwrite_eq hwithin]
    rfl

theorem setMemoryInPlace_eq (m : Machine) (values : List Cell) :
    m.setMemoryInPlace values = m.orUnchanged (m.setMemory values) := by
  unfold setMemoryInPlace setMemory
  split
  · rfl
  · rename_i hroom
    have hwithin : ∀ a v, (a, v) ∈ (values.zipIdx.map fun (v, a) => (a, v)) →
        a < m.core.memory.size := by
      intro a v hmem
      obtain ⟨⟨u, b⟩, hzip, heq⟩ := List.mem_map.1 hmem
      obtain ⟨rfl, rfl⟩ := Prod.mk.inj heq
      have hlt := List.snd_lt_of_mem_zipIdx hzip
      omega
    rw [Memory.overwrite_eq hwithin]
    rfl

/-! ## Loading -/

/-- The news of a program that was loaded: the registers, the cells that are other ones now, and the
    labels. -/
def loadEvents (m : Machine) (o : Object) (memory : Memory) : List Event :=
  .registersChanged 0 o.start ::
    (Journal.memoryEvent (m.core.memory.differing memory) ++ [.labelsChanged])

/-- A machine that has loaded a program: the writes have been made one after the other, the program
    is set to its start, everything else is as it was, and each subscriber got the news. -/
structure HasLoaded (m : Machine) (o : Object) (m' : Machine) : Prop where
  memory : ∃ changed, m.core.memory.overwrite o.writes = (m'.core.memory, .ok changed)
  cells : ∀ a, m'.core.memory.cells[a]? =
    m.core.memory.cells[a]?.map fun old => (lastWrite? o.writes a).getD old
  machine : m' = tell
    { m with
      core := ⟨m'.core.memory, 0, o.start⟩, status := .ready, start := o.start
      symbols := o.symbols, executed := 0, pause := none, journal := m.journal.clear }
    (m.loadEvents o m'.core.memory)
  inboxes : m'.journal.inboxes =
    m.journal.inboxes.map (·.map (· ++ m.loadEvents o m'.core.memory))

theorem hasLoaded_of_load (h : m.load o = .ok m') : m.HasLoaded o m' := by
  obtain ⟨hroom, hloaded⟩ := load_eq_ok_iff.1 h
  have hchanged := Memory.changed_storeAll m.core.memory o.ascending_cells
  have hmemory : m'.core.memory = (m.core.memory.storeAll o.cells).1 := by
    rw [hloaded]
    rfl
  -- the cells were stored once each, which comes to the same as all writes in their order
  have hsame : m'.core.memory = (m.core.memory.storeAll o.writes).1 :=
    hmemory.trans (congrArg Memory.mk (Memory.cells_storeAll_cells m.core.memory o))
  have hmachine : m' = tell
      { m with
        core := ⟨m'.core.memory, 0, o.start⟩, status := .ready, start := o.start
        symbols := o.symbols, executed := 0, pause := none, journal := m.journal.clear }
      (m.loadEvents o m'.core.memory) := by
    rw [hmemory, loadEvents, ← hchanged, hloaded]
    rfl
  refine ⟨?_, ?_, hmachine, ?_⟩
  · have hwithin : ∀ a v, (a, v) ∈ o.writes → a < m.core.memory.size := by
      intro a v hmem
      have hlt := Object.lt_extent_of_mem hmem
      omega
    rw [Memory.overwrite_eq hwithin, hsame]
    exact ⟨_, rfl⟩
  · intro a
    rw [hsame]
    exact Memory.getElem?_storeAll _ _ a
  · have hinboxes := congrArg (·.journal.inboxes) hmachine
    exact hinboxes.trans (Journal.inboxes_notifyAll _ _)

/-- Loading is all or nothing. It fails if and only if something is written outside of memory, with
    the greatest address written, and then does nothing, neither in one go nor write by write. -/
structure LoadsWhole (m : Machine) (o : Object) : Prop where
  inPlace : m.loadInPlace o = m.orUnchanged (m.load o)
  refuses_iff : (∃ f, m.load o = .error f) ↔ ∃ a ∈ o.addresses, m.core.memory.size ≤ a
  fault : ∀ f, m.load o = .error f → ∃ a, IsGreatest o.addresses a ∧ f = .outside a
  loaded : ∀ m', m.load o = .ok m' → m.HasLoaded o m'

theorem loadsWhole (m : Machine) (o : Object) : m.LoadsWhole o := by
  refine ⟨m.loadInPlace_eq o, ?_, ?_, fun m' => hasLoaded_of_load⟩
  · rw [← Object.lt_extent_iff]
    constructor
    · rintro ⟨f, hf⟩
      exact (load_eq_error_iff.1 hf).1
    · intro hlt
      exact ⟨_, load_eq_error_iff.2 ⟨hlt, rfl⟩⟩
  · intro f hf
    obtain ⟨hlt, rfl⟩ := load_eq_error_iff.1 hf
    exact ⟨_, Object.isGreatest_addresses (Nat.zero_lt_of_lt hlt), rfl⟩

/-! ## Setting memory -/

theorem lastWrite?_zipIdx (values : List Cell) (a : Nat) :
    lastWrite? (values.zipIdx.map fun (v, a) => (a, v)) a = values[a]? := by
  cases hv : values[a]? with
  | some v =>
      have hmem : (a, v) ∈ values.zipIdx.map fun (v, a) => (a, v) :=
        List.mem_map.2 ⟨(v, a), List.mem_zipIdx_iff_getElem?.2 hv, rfl⟩
      exact lastWrite?_eq_some_of_mem (ascending_zipIdx values).nodup hmem
  | none =>
      refine lastWrite?_eq_none_iff.2 ?_
      intro v hmem
      obtain ⟨⟨u, b⟩, hzip, heq⟩ := List.mem_map.1 hmem
      obtain ⟨rfl, rfl⟩ := Prod.mk.inj heq
      exact absurd (hv.symm.trans (List.mem_zipIdx_iff_getElem?.1 hzip)) (by simp)

/-- A machine whose first cells were set: no other cell is another one, nothing else has changed,
    and each subscriber got the cells that are other ones now. -/
structure HasSet (m : Machine) (values : List Cell) (m' : Machine) : Prop where
  cells : ∀ a, m'.core.memory.cells[a]? =
    if a < values.length then values[a]? else m.core.memory.cells[a]?
  machine : m' = tell { m with core := { m.core with memory := m'.core.memory } }
    (Journal.memoryEvent (m.core.memory.differing m'.core.memory))
  inboxes : m'.journal.inboxes = m.journal.inboxes.map
    (·.map (· ++ Journal.memoryEvent (m.core.memory.differing m'.core.memory)))

theorem hasSet_of_setMemory (h : m.setMemory values = .ok m') : m.HasSet values m' := by
  obtain ⟨hroom, hset⟩ := setMemory_eq_ok_iff.1 h
  have hchanged := Memory.changed_storeAll m.core.memory (ascending_zipIdx values)
  have hmemory : m'.core.memory =
      (m.core.memory.storeAll (values.zipIdx.map fun (v, a) => (a, v))).1 := by
    rw [hset]
    rfl
  have hmachine : m' = tell { m with core := { m.core with memory := m'.core.memory } }
      (Journal.memoryEvent (m.core.memory.differing m'.core.memory)) := by
    rw [hmemory, ← hchanged, hset]
  refine ⟨?_, hmachine, ?_⟩
  · intro a
    rw [hmemory, Memory.getElem?_storeAll, lastWrite?_zipIdx]
    split
    · rename_i hlt
      have hcell : a < m.core.memory.cells.size := by
        show a < m.core.memory.size
        omega
      simp [hcell, hlt]
    · rename_i hge
      simp [List.getElem?_eq_none (Nat.le_of_not_lt hge)]
  · have hinboxes := congrArg (·.journal.inboxes) hmachine
    exact hinboxes.trans (Journal.inboxes_notifyAll _ _)

/-- Setting the first cells is all or nothing, in the same way. -/
structure SetsWhole (m : Machine) (values : List Cell) : Prop where
  inPlace : m.setMemoryInPlace values = m.orUnchanged (m.setMemory values)
  refuses_iff : (∃ f, m.setMemory values = .error f) ↔ m.core.memory.size < values.length
  fault : ∀ f, m.setMemory values = .error f → f = .outside (values.length - 1)
  set : ∀ m', m.setMemory values = .ok m' → m.HasSet values m'

theorem setsWhole (m : Machine) (values : List Cell) : m.SetsWhole values := by
  refine ⟨m.setMemoryInPlace_eq values, ?_, ?_, fun m' => hasSet_of_setMemory⟩
  · constructor
    · rintro ⟨f, hf⟩
      exact (setMemory_eq_error_iff.1 hf).1
    · intro hlt
      exact ⟨_, setMemory_eq_error_iff.2 ⟨hlt, rfl⟩⟩
  · intro f hf
    exact (setMemory_eq_error_iff.1 hf).2

/-- Loading an assembled text is all or nothing, and so is setting the first cells. The fault names
    the greatest address as it is: a text of fewer than `2 ^ 63` characters writes no address, and a
    list of at most `2 ^ 63` values has none, that a fault could not name. -/
theorem load_all_or_nothing (m : Machine) (source : String) (values : List Cell) :
    m.LoadsWhole (assemble source).object ∧
    (source.length < 2 ^ 63 → ∀ f, m.load (assemble source).object = .error f →
      ∃ a : Nat, IsGreatest (assemble source).object.addresses a ∧ f = .outOfRange a) ∧
    m.SetsWhole values ∧
    (values.length ≤ 2 ^ 63 → ∀ f, m.setMemory values = .error f →
      f = .outOfRange (values.length - 1 : Nat)) := by
  have hloads := m.loadsWhole (assemble source).object
  have hsets := m.setsWhole values
  refine ⟨hloads, ?_, hsets, ?_⟩
  · intro hlength f hf
    obtain ⟨a, hgreatest, rfl⟩ := hloads.fault f hf
    obtain ⟨v, hmem⟩ := hgreatest.1
    have hlt := lt_of_mem_writes_assemble hmem
    refine ⟨a, hgreatest, Fault.outside_of_le ?_⟩
    unfold Fault.maxAddress
    omega
  · intro hlength f hf
    rw [hsets.fault f hf]
    refine Fault.outside_of_le ?_
    unfold Fault.maxAddress
    omega

/-- Of a cell that is written twice the last value counts, and as that is the one from before, the
    cell is not told. -/
theorem load_all_or_nothing_written_twice :
    ∃ m m' : Machine, m.load (assemble "3 1\n3 0\n1 7").object = .ok m' ∧
      m'.journal.inboxes = [some [.registersChanged 0 0, .memoryChanged [1], .labelsChanged]] := by
  obtain ⟨m, m', hload, hevents, hinboxes⟩ : ∃ m m' : Machine,
      m.load (assemble "3 1\n3 0\n1 7").object = .ok m' ∧
      m.loadEvents (assemble "3 1\n3 0\n1 7").object m'.core.memory =
        [.registersChanged 0 0, .memoryChanged [1], .labelsChanged] ∧
      m.journal.inboxes = [some []] :=
    ⟨(new default 0 { capacity := 4 }).subscribe, _, rfl, by decide +kernel, rfl⟩
  obtain ⟨hloads, -⟩ := load_all_or_nothing m "3 1\n3 0\n1 7" []
  have hnews := (hloads.loaded m' hload).inboxes
  rw [hevents, hinboxes] at hnews
  exact ⟨m, m', hload, hnews⟩

end Machine

end DecimalMachine
