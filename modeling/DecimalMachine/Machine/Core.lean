import DecimalMachine.Instr.Format
import DecimalMachine.Machine.Memory

set_option autoImplicit false

/-! # The core

Memory, the accumulator and the instruction pointer, and what one instruction does to them. An
instruction is first worked out to its effect, from the values before it, and the effect is then
applied; so an instruction that faults leaves everything as it was. -/

namespace DecimalMachine

/-! ## Operands -/

namespace Memory

/-- The address that a cell value names, if it is the address of a cell. -/
def locate (m : Memory) (v : Cell) : Except Fault Nat :=
  if 0 ≤ v.toInt ∧ v.toInt < m.size then .ok v.toInt.toNat else .error (.outOfRange v.toInt)

/-- The address that an operand means: for an immediate one too it is the number itself. -/
def address (m : Memory) (x : Operand) : Except Fault Nat :=
  match x.mode with
  | .immediate => m.locate x.value
  | .direct => m.locate x.value
  | .indirect => do
      let pointer ← m.locate x.value
      m.locate (← m.read pointer)

/-- The value that an operand means. -/
def value (m : Memory) (x : Operand) : Except Fault Cell :=
  match x.mode with
  | .immediate => .ok x.value
  | .direct => do m.read (← m.address x)
  | .indirect => do m.read (← m.address x)

end Memory

/-! ## Effects -/

/-- Memory and registers. -/
structure Core where
  memory : Memory
  acu : Cell := 0
  pc : Nat := 0
  deriving DecidableEq, Repr

/-- What an instruction does: the registers after it, and the one cell it may write. -/
structure Effect where
  acu : Cell
  pc : Nat
  write? : Option (Nat × Cell) := none
  deriving DecidableEq, Repr

namespace Core

/-- The instruction at the instruction pointer, and its width. -/
def fetch (c : Core) : Except Fault (Instr × Width) := do
  Instr.decode (← c.memory.read c.pc) (c.memory.read (c.pc + 1))

/-- The effect of an opcode on an operand, if the instruction after it stands at `next`; `HLT` has
    none. -/
def effectOf (c : Core) (op : Opcode) (x : Operand) (next : Nat) : Except Fault (Option Effect) :=
  match op with
  | .hlt => .ok none
  | .inc => do
      let a ← c.memory.address x
      return some ⟨c.acu, next, some (a, (← c.memory.read a) + 1)⟩
  | .dec => do
      let a ← c.memory.address x
      return some ⟨c.acu, next, some (a, (← c.memory.read a) - 1)⟩
  | .sto => do return some ⟨c.acu, next, some (← c.memory.address x, c.acu)⟩
  | .cpa => do return some ⟨← c.memory.value x, next, none⟩
  | .add => do return some ⟨c.acu + (← c.memory.value x), next, none⟩
  | .sub => do return some ⟨c.acu - (← c.memory.value x), next, none⟩
  | .mul => do return some ⟨c.acu * (← c.memory.value x), next, none⟩
  | .bra => do return some ⟨c.acu, ← c.memory.address x, none⟩
  | .brn => do
      if c.acu < 0 then return some ⟨c.acu, ← c.memory.address x, none⟩
      else return some ⟨c.acu, next, none⟩
  | .brz => do
      if c.acu = 0 then return some ⟨c.acu, ← c.memory.address x, none⟩
      else return some ⟨c.acu, next, none⟩

/-- The effect of the instruction at the instruction pointer; a halt has none. -/
def effect (c : Core) : Except Fault (Option Effect) := do
  let (i, width) ← c.fetch
  match i.operand with
  | none => return none
  | some x => c.effectOf i.op x (c.pc + width.cells)

/-- The core after an effect, and the cell that it changed, if it changed one. -/
def apply (c : Core) (e : Effect) : Core × Option Nat :=
  match e.write? with
  | none => (⟨c.memory, e.acu, e.pc⟩, none)
  | some (a, v) =>
      let (memory, changed) := c.memory.store a v
      (⟨memory, e.acu, e.pc⟩, if changed then some a else none)

end Core

end DecimalMachine
