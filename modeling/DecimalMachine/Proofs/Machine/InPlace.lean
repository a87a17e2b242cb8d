import DecimalMachine.Proofs.Machine.Operand
import DecimalMachine.Proofs.Machine.Step

set_option autoImplicit false

/-! # Execution in place

An instruction is worked out to its effect before anything of it is applied (`Core.effect`), so that
one that faults leaves everything as it was. A machine that works in place has no such point: it
reads, writes and records as it comes to it, and whatever has been done before a fault stays done
(`InPlace`). It comes to the same all the same (`Machine.executeInPlace_eq`), because each
instruction does all that can fail before anything else, and its one write, which could fail too,
goes to an address that has been found in memory before. -/

namespace DecimalMachine

/-- Why an instruction breaks off. -/
inductive Break
  /-- It is a halt. -/
  | halt
  /-- It cannot be executed. -/
  | fault (f : Fault)
  deriving DecidableEq, Repr

/-- Something done to a machine in place. If it breaks off, what it has done up to then stays. -/
abbrev InPlace (α : Type) := EStateM Break Machine α

namespace InPlace

/-! ## Instructions -/

/-- Finds something out about the machine, or breaks off with a fault. -/
def ask {α : Type} (f : Machine → Except Fault α) : InPlace α := do
  match f (← get) with
  | .ok a => return a
  | .error g => throw (.fault g)

/-- Writes a cell, and records it if that changed it. -/
def writeCell (a : Nat) (v : Cell) : InPlace Unit := do
  let (memory, changed) ← ask (·.core.memory.write a v)
  modify fun m => { m with core := { m.core with memory } }
  if changed then modify fun m => { m with journal := m.journal.recordCell a }

/-- Sets the accumulator. -/
def setAcu (acu : Cell) : InPlace Unit :=
  modify fun m => { m with core := { m.core with acu } }

/-- Carries out an instruction on what is in the accumulator, if the instruction after it stands at
    `next`, and gives back where to go on. -/
def operate (i : Instr) (acu : Cell) (next : Nat) : InPlace Nat :=
  match i.op, i.operand with
  | .hlt, _ | _, none => do
      modify fun m => { m with executed := m.executed + 1 }
      throw .halt
  | .inc, some x => do
      let a ← ask (·.core.memory.address x)
      let v ← ask (·.core.memory.read a)
      writeCell a (v + 1)
      return next
  | .dec, some x => do
      let a ← ask (·.core.memory.address x)
      let v ← ask (·.core.memory.read a)
      writeCell a (v - 1)
      return next
  | .cpa, some x => do
      setAcu (← ask (·.core.memory.value x))
      return next
  | .sto, some x => do
      let a ← ask (·.core.memory.address x)
      writeCell a acu
      return next
  | .add, some x => do
      setAcu (acu + (← ask (·.core.memory.value x)))
      return next
  | .sub, some x => do
      setAcu (acu - (← ask (·.core.memory.value x)))
      return next
  | .mul, some x => do
      setAcu (acu * (← ask (·.core.memory.value x)))
      return next
  | .bra, some x => ask (·.core.memory.address x)
  | .brn, some x => if acu < 0 then ask (·.core.memory.address x) else return next
  | .brz, some x => if acu = 0 then ask (·.core.memory.address x) else return next

/-- Goes on at some address: the instruction has been executed. -/
def goOnAt (pc : Nat) : InPlace Unit := do
  modify fun m => { m with core := { m.core with pc } }
  modify fun m => { m with journal := m.journal.recordRegisters }
  modify fun m => { m with executed := m.executed + 1 }

/-- Executes the instruction at the instruction pointer. -/
def instruction : InPlace Unit := do
  let word ← ask fun m => m.core.memory.read m.core.pc
  let (i, width) ← ask fun m => Instr.decode word (m.core.memory.read (m.core.pc + 1))
  let m ← get
  goOnAt (← operate i m.core.acu (m.core.pc + width.cells))

end InPlace

namespace Machine

/-- Executes the instruction at the instruction pointer in place. -/
def executeInPlace (m : Machine) : Machine × Outcome :=
  match m.status with
  | .halted => (m, .halted)
  | .faulted f => (m, .faulted f)
  | .ready | .running =>
      match InPlace.instruction { m with status := .running } with
      | .ok () m => (m, .ran)
      | .error .halt m => ({ m with status := .halted }, .halted)
      | .error (.fault f) m => ({ m with status := .faulted f }, .faulted f)

/-- A step by itself, in place. -/
def stepInPlace (m : Machine) : Machine × Except Fault Unit :=
  let (m, outcome) := executeInPlace { m with journal := m.journal.clear }
  match outcome with
  | .faulted f => (m.publish, .error f)
  | _ => (m.publish, .ok ())

/-- The machine after an effect, before its instruction pointer is set. -/
def carry (m : Machine) (e : Effect) : Machine :=
  { m with
    core := ⟨(m.core.apply e).1.memory, e.acu, m.core.pc⟩
    journal := ((m.core.apply e).2.map m.journal.recordCell).getD m.journal }

end Machine

namespace InPlace

/-! ## One thing after the other -/

section Bind

variable {α β : Type} {m r : Machine} {y : InPlace β} {k : β → InPlace α}
  {f : Machine → Except Fault α}

theorem bind_of_ok {b : β} (h : y m = .ok b r) : (y >>= k) m = k b r := by
  show EStateM.bind y k m = k b r
  rw [EStateM.bind, h]

theorem bind_of_error {b : Break} (h : y m = .error b r) : (y >>= k) m = .error b r := by
  show EStateM.bind y k m = .error b r
  rw [EStateM.bind, h]

theorem ask_of_ok {v : α} (h : f m = .ok v) : ask f m = .ok v m := by
  show (match f m with | .ok a => pure a | .error g => throw (.fault g) : InPlace α) m = _
  rw [h]
  rfl

theorem ask_of_error {g : Fault} (h : f m = .error g) : ask f m = .error (.fault g) m := by
  show (match f m with | .ok a => pure a | .error g => throw (.fault g) : InPlace α) m = _
  rw [h]
  rfl

end Bind

/-- A write to a cell that is there does not fail. -/
theorem writeCell_of_lt {m : Machine} {a : Nat} (hlt : a < m.core.memory.size) (v : Cell) :
    writeCell a v m = .ok ()
      { m with
        core := { m.core with memory := (m.core.memory.store a v).1 }
        journal :=
          if (m.core.memory.store a v).2 then m.journal.recordCell a else m.journal } := by
  have hwrite : m.core.memory.write a v = .ok (m.core.memory.store a v) := if_pos hlt
  rw [writeCell, bind_of_ok (ask_of_ok hwrite)]
  obtain ⟨memory, changed⟩ := m.core.memory.store a v
  cases changed <;> rfl

/-! ## Effects in place -/

/-- What is done in place to a machine comes to what was worked out: to a fault that leaves the
    machine as it is, to a halt that is only counted, or to an effect, after which it is `done`. -/
inductive ComesTo {α : Type} (m : Machine) (done : Effect → EStateM.Result Break Machine α) :
    Except Fault (Option Effect) → EStateM.Result Break Machine α → Prop
  | fault (f : Fault) : ComesTo m done (.error f) (.error (.fault f) m)
  | halt : ComesTo m done (.ok none) (.error .halt { m with executed := m.executed + 1 })
  | effect (e : Effect) : ComesTo m done (.ok (some e)) (done e)

section ComesTo

variable {α β : Type} {m : Machine} {done : Effect → EStateM.Result Break Machine α}
  {x : Operand} {next a : Nat}

/-- What is asked in place can be asked beforehand, as long as nothing has been done yet. -/
theorem ComesTo.ask {f : Machine → Except Fault β} {k : β → InPlace α}
    {g : β → Except Fault (Option Effect)}
    (h : ∀ b, f m = .ok b → ComesTo m done (g b) (k b m)) :
    ComesTo m done (f m >>= g) ((InPlace.ask f >>= k) m) := by
  cases hf : f m with
  | error e =>
      rw [bind_of_error (ask_of_error hf)]
      exact .fault e
  | ok b =>
      rw [bind_of_ok (ask_of_ok hf)]
      exact h b hf

/-- What comes after an effect comes after it in place. -/
theorem ComesTo.bind {r : Except Fault (Option Effect)} {y : InPlace β} {k : β → InPlace α}
    {v : Effect → β} {s : Effect → Machine}
    (h : ComesTo m (fun e => .ok (v e) (s e)) r (y m)) :
    ComesTo m (fun e => k (v e) (s e)) r ((y >>= k) m) := by
  generalize hy : y m = z at h
  cases h with
  | fault f =>
      rw [bind_of_error hy]
      exact .fault f
  | halt =>
      rw [bind_of_error hy]
      exact .halt
  | effect e =>
      rw [bind_of_ok hy]
      exact .effect e

/-- What is done in place, up to setting the instruction pointer, comes to what was worked out. -/
abbrev CarriesOut (m : Machine) (r : Except Fault (Option Effect)) (y : InPlace Nat) : Prop :=
  ComesTo m (fun e => .ok e.pc (m.carry e)) r (y m)

theorem carriesOut_next :
    CarriesOut m (pure (some ⟨m.core.acu, next, none⟩)) (pure next) :=
  .effect ⟨m.core.acu, next, none⟩

theorem carriesOut_jump :
    CarriesOut m (do return some ⟨m.core.acu, ← m.core.memory.address x, none⟩)
      (InPlace.ask (·.core.memory.address x)) := by
  unfold CarriesOut
  cases h : m.core.memory.address x with
  | error f =>
      rw [ask_of_error h]
      exact .fault f
  | ok a =>
      rw [ask_of_ok h]
      exact .effect ⟨m.core.acu, a, none⟩

theorem carriesOut_value (g : Cell → Cell) :
    CarriesOut m (do return some ⟨g (← m.core.memory.value x), next, none⟩) (do
      setAcu (g (← InPlace.ask (·.core.memory.value x)))
      return next) := by
  refine .ask (f := (·.core.memory.value x)) fun v _ => ?_
  exact .effect ⟨g v, next, none⟩

/-- A cell that was found can be written. -/
theorem carriesOut_write (ha : m.core.memory.address x = .ok a) (v : Cell) :
    CarriesOut m (pure (some ⟨m.core.acu, next, some (a, v)⟩)) (do
      writeCell a v
      return next) := by
  have hlt : a < m.core.memory.size := (Memory.address_eq_ok_iff.1 ha).2
  have hcarry : (writeCell a v >>= fun _ => pure next) m =
      .ok next (m.carry ⟨m.core.acu, next, some (a, v)⟩) := by
    rw [bind_of_ok (writeCell_of_lt hlt v)]
    simp only [Machine.carry, Core.apply]
    cases (m.core.memory.store a v).2 <;> rfl
  rw [CarriesOut, hcarry]
  exact .effect _

theorem carriesOut_update (g : Cell → Cell) :
    CarriesOut m (do
      let a ← m.core.memory.address x
      return some ⟨m.core.acu, next, some (a, g (← m.core.memory.read a))⟩) (do
      let a ← InPlace.ask (·.core.memory.address x)
      let v ← InPlace.ask (·.core.memory.read a)
      writeCell a (g v)
      return next) := by
  refine .ask (f := (·.core.memory.address x)) fun a ha => ?_
  refine .ask (f := (·.core.memory.read a)) fun v _ => ?_
  exact carriesOut_write ha (g v)

theorem carriesOut_store :
    CarriesOut m (do return some ⟨m.core.acu, next, some (← m.core.memory.address x, m.core.acu)⟩)
      (do
        let a ← InPlace.ask (·.core.memory.address x)
        writeCell a m.core.acu
        return next) := by
  refine .ask (f := (·.core.memory.address x)) fun a ha => ?_
  exact carriesOut_write ha m.core.acu

/-- An instruction carried out in place comes to what was worked out beforehand: nothing has been
    done when it looks for the cell of its operand, and nothing fails after that. -/
theorem carriesOut_operate (i : Instr) (m : Machine) (next : Nat) :
    CarriesOut m
      (match i.operand with
        | none => .ok none
        | some x => m.core.effectOf i.op x next)
      (operate i m.core.acu next) := by
  obtain ⟨op, x?⟩ := i
  cases x? with
  | none => cases op <;> exact .halt
  | some x =>
      cases op with
      | hlt => exact .halt
      | inc => exact carriesOut_update (· + 1)
      | dec => exact carriesOut_update (· - 1)
      | sto => exact carriesOut_store
      | cpa => exact carriesOut_value id
      | add => exact carriesOut_value (m.core.acu + ·)
      | sub => exact carriesOut_value (m.core.acu - ·)
      | mul => exact carriesOut_value (m.core.acu * ·)
      | bra => exact carriesOut_jump
      | brn =>
          simp only [operate, Core.effectOf]
          split
          · exact carriesOut_jump
          · exact carriesOut_next
      | brz =>
          simp only [operate, Core.effectOf]
          split
          · exact carriesOut_jump
          · exact carriesOut_next

theorem goOnAt_carry (hrunning : m.status = .running) (e : Effect) :
    goOnAt e.pc (m.carry e) = .ok () (m.perform e) := by
  obtain ⟨acu, pc, write?⟩ := e
  simp only [Machine.perform, ← hrunning]
  cases write? with
  | none => rfl
  | some w =>
      simp only [Machine.carry, Core.apply]
      cases (m.core.memory.store w.1 w.2).2 <;> rfl

/-- The whole instruction comes to its effect, applied and recorded. -/
theorem comesTo_instruction (hrunning : m.status = .running) :
    ComesTo m (fun e => .ok () (m.perform e)) m.core.effect (instruction m) := by
  simp only [← goOnAt_carry hrunning, Core.effect, Core.fetch, bind_assoc]
  refine .ask (f := fun m => m.core.memory.read m.core.pc) fun word _ => ?_
  refine .ask (f := fun m => Instr.decode word (m.core.memory.read (m.core.pc + 1))) fun r _ => ?_
  exact (carriesOut_operate r.1 m (m.core.pc + r.2.cells)).bind

end ComesTo

end InPlace

/-! ## Machines in place -/

namespace Machine

theorem executes_executeInPlace (m : Machine) :
    m.Executes m.executeInPlace.1 m.executeInPlace.2 := by
  have hactive (hm : m.IsActive) : m.Executes m.executeInPlace.1 m.executeInPlace.2 := by
    have hcomes := InPlace.comesTo_instruction (m := { m with status := .running }) rfl
    have heq : m.executeInPlace =
        match InPlace.instruction { m with status := .running } with
        | .ok () m => (m, .ran)
        | .error .halt m => ({ m with status := .halted }, .halted)
        | .error (.fault f) m => ({ m with status := .faulted f }, .faulted f) := by
      unfold executeInPlace
      rcases hm with hs | hs <;> rw [hs]
    rw [heq]
    generalize InPlace.instruction { m with status := .running } = z at hcomes
    generalize he : m.core.effect = effect at hcomes
    cases hcomes with
    | fault f => exact .fault hm he
    | halt => exact .halt hm he
    | effect e => exact .run hm he
  cases hs : m.status with
  | ready => exact hactive (.inl hs)
  | running => exact hactive (.inr hs)
  | halted =>
      unfold executeInPlace
      rw [hs]
      exact .halted hs
  | faulted f =>
      unfold executeInPlace
      rw [hs]
      exact .faulted hs

/-- A machine that works in place does the same. -/
theorem executeInPlace_eq (m : Machine) : m.executeInPlace = m.execute := by
  exact (executes_executeInPlace m).execute_eq.symm

theorem stepInPlace_eq (m : Machine) : m.stepInPlace = m.step := by
  rw [stepInPlace, executeInPlace_eq]
  rfl

end Machine

end DecimalMachine
