import DecimalMachine.Fault

set_option autoImplicit false

/-! # Memory

A row of cells that can be read, written and made longer or shorter. New cells take their values
from a filler, one after the other in the order of their addresses; a cell that was cut off is
gone, and a new one at its address knows nothing of it. -/

namespace DecimalMachine

/-! ## Fillers -/

/-- A source of values for new cells. -/
class Filler (σ : Type) where
  /-- The next value, and the source after it. -/
  next : σ → Cell × σ

/-- A value is the source of itself, over and over. -/
instance : Filler Cell where
  next v := (v, v)

/-- An arithmetic progression modulo `2 ^ 32`. -/
structure Progression where
  value : Cell
  difference : Cell
  deriving DecidableEq, Repr

instance : Filler Progression where
  next p := (p.value, { p with value := p.value + p.difference })

/-! ## Memory -/

/-- A row of cells. -/
structure Memory where
  cells : Array Cell
  deriving DecidableEq, Repr

/-- An address past the end of a memory of some size, used where the address was to be right. -/
structure BoundsError where
  size : Nat
  address : Nat
  deriving DecidableEq, Repr

/-- What went wrong, in a few words. -/
def BoundsError.message (e : BoundsError) : String :=
  "index out of bounds: the len is " ++ Text.Numeral.text e.size ++ " but the index is " ++
    Text.Numeral.text e.address

namespace Memory

/-- The memory without cells. -/
def empty : Memory := ⟨#[]⟩

/-- The number of cells. -/
def size (m : Memory) : Nat := m.cells.size

/-! ### Growing and shrinking -/

/-- A memory with `n` more cells at its end, and the filler after them. -/
def extend {σ : Type} [Filler σ] (m : Memory) : Nat → σ → Memory × σ
  | 0, s => (m, s)
  | n + 1, s =>
      let (v, s) := Filler.next s
      extend ⟨m.cells.push v⟩ n s

theorem size_extend {σ : Type} [Filler σ] (m : Memory) (n : Nat) (s : σ) :
    (m.extend n s).1.size = m.size + n := by
  induction n generalizing m s with
  | zero => rfl
  | succ n ih => rw [extend, ih]; simp [size]; omega

/-- A memory of `n` cells, and the filler after them. -/
def create {σ : Type} [Filler σ] (n : Nat) (s : σ) : Memory × σ :=
  empty.extend n s

theorem size_create {σ : Type} [Filler σ] (n : Nat) (s : σ) : (create n s).1.size = n := by
  rw [create, size_extend]
  exact Nat.zero_add n

/-- A memory cut or extended to `n` cells, and the filler after the new ones. -/
def resize {σ : Type} [Filler σ] (m : Memory) (n : Nat) (s : σ) : Memory × σ :=
  extend ⟨m.cells.extract 0 n⟩ (n - m.size) s

theorem size_resize {σ : Type} [Filler σ] (m : Memory) (n : Nat) (s : σ) :
    (m.resize n s).1.size = n := by
  rw [resize, size_extend]
  simp only [size, Array.size_extract]
  omega

/-! ### Access -/

/-- The value of a cell. -/
def read (m : Memory) (a : Nat) : Except Fault Cell :=
  match m.cells[a]? with
  | some v => .ok v
  | none => .error (.outside a)

/-- A memory with a cell set to a value, and whether that changed the cell; nothing is done at an
    address past the end. -/
def store (m : Memory) (a : Nat) (v : Cell) : Memory × Bool :=
  if h : a < m.cells.size then
    let changed := m.cells[a] != v
    (⟨m.cells.set a v h⟩, changed)
  else (m, false)

theorem size_store (m : Memory) (a : Nat) (v : Cell) : (m.store a v).1.size = m.size := by
  unfold store
  split
  · simp [size]
  · rfl

/-- A memory with a cell set to a value, and whether that changed the cell. -/
def write (m : Memory) (a : Nat) (v : Cell) : Except Fault (Memory × Bool) :=
  if a < m.size then .ok (m.store a v) else .error (.outside a)

/-- A memory with values stored one after the other, and the addresses where that changed the
    cell. -/
def storeAll (m : Memory) : List (Nat × Cell) → Memory × List Nat
  | [] => (m, [])
  | (a, v) :: rest =>
      let (m, changed) := m.store a v
      let (m, others) := m.storeAll rest
      (m, if changed then a :: others else others)

theorem size_storeAll (m : Memory) (writes : List (Nat × Cell)) :
    (m.storeAll writes).1.size = m.size := by
  induction writes generalizing m with
  | nil => rfl
  | cons w rest ih => simp [storeAll, ih, size_store]

/-- The value of a cell at an address that is to be right. -/
def get (m : Memory) (a : Nat) : Except BoundsError Cell :=
  match m.cells[a]? with
  | some v => .ok v
  | none => .error ⟨m.size, a⟩

/-- A memory with a cell set to a value, at an address that is to be right. -/
def set (m : Memory) (a : Nat) (v : Cell) : Except BoundsError Memory :=
  if a < m.size then .ok (m.store a v).1 else .error ⟨m.size, a⟩

/-- A memory with every cell set to one value. -/
def fill (m : Memory) (v : Cell) : Memory :=
  ⟨m.cells.map fun _ => v⟩

theorem size_fill (m : Memory) (v : Cell) : (m.fill v).size = m.size := by
  simp [fill, size]

end Memory

end DecimalMachine
