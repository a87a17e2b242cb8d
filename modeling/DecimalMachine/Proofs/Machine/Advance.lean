import DecimalMachine.Proofs.Assembly.Bounds
import DecimalMachine.Proofs.Machine.WideForm

set_option autoImplicit false

/-! # The instruction pointer in 64 bits

The instruction pointer can be set to anything, also to the last of the 64-bit numbers, to which
nothing can be added. That does no harm, as the cell that it points to is read first: where there is
none, the instruction faults before it adds anything. Next to the effect of an instruction stands
one that adds to the instruction pointer only while it points to a cell, and that gives up where a
sum does not fit (`Core.effect?`). In a memory of fewer than `2 ^ 63` cells it never does
(`Core.effect?_eq_some`), and a pointer never comes further than to the end of memory
(`Core.Performs.pc_le`). With the bounds on the addresses of a program this is that no sum of
addresses wraps around (`sums_fit`). -/

namespace DecimalMachine

/-- A word that does not ask for the next cell says the same whatever is in it. -/
theorem Instr.decode_congr_of_readsNext {word : Cell} (h : ¬ readsNext word = true)
    (next next' : Except Fault Cell) : decode word next = decode word next' := by
  unfold readsNext at h
  unfold decode
  cases hread : read? word with
  | none => rfl
  | some r =>
      cases r with
      | whole i => rfl
      | marker op mode =>
          rw [hread] at h
          exact absurd rfl h

namespace Core

/-! ## Sums with the instruction pointer -/

/-- The instruction pointer moved on by some cells, if it points to a cell and the sum fits. -/
def advance? (c : Core) (count : Nat) : Option Nat :=
  if c.pc < c.memory.size then sum64? c.pc count else none

/-- The instruction at the instruction pointer and its width, if the sum for the next cell fits; it
    is worked out only after a marker, as no other word asks for the next cell. -/
def fetch? (c : Core) : Option (Except Fault (Instr × Width)) :=
  match c.memory.read c.pc with
  | .error f => some (.error f)
  | .ok word =>
      if Instr.readsNext word then
        (c.advance? 1).map fun next => Instr.decode word (c.memory.read next)
      else
        -- what stands for the next cell here is not looked at
        some (Instr.decode word (.error (.unrecognized word)))

/-- The effect of the instruction at the instruction pointer, if its sums fit. The one for the next
    instruction is worked out for all of them, be they branches or halts. -/
def effect? (c : Core) : Option (Except Fault (Option Effect)) := do
  match ← c.fetch? with
  | .error f => return .error f
  | .ok (i, width) =>
      let next ← c.advance? width.cells
      match i.operand with
      | none => return .ok none
      | some x => return c.effectOf i.op x next

variable {c c' : Core} {i : Instr} {w : Width} {next : Nat}

/-- All cells of an instruction are in memory. -/
theorem Fetches.add_le_size (h : c.Fetches i w) : c.pc + w.cells ≤ c.memory.size := by
  cases h with
  | packed hword h => exact hword.lt
  | wide hword hv h => exact hv.lt

theorem Fetches.pc_lt (h : c.Fetches i w) : c.pc < c.memory.size := by
  cases h with
  | packed hword h => exact hword.lt
  | wide hword hv h => exact hword.lt

theorem advance?_eq_some (hpc : c.pc < c.memory.size) (hsize : c.memory.size < 2 ^ 63)
    {count : Nat} (hcount : count ≤ 2) : c.advance? count = some (c.pc + count) := by
  rw [advance?, if_pos hpc]
  exact sum64?_of_lt (by omega)

theorem fetch?_eq_some (hsize : c.memory.size < 2 ^ 63) : c.fetch? = some c.fetch := by
  unfold fetch? fetch
  cases hword : c.memory.read c.pc with
  | error f => rfl
  | ok word =>
      -- a word that was read is in a cell, so the pointer is below the size of memory
      have hpc := (Memory.read_eq_ok_iff.1 hword).lt
      dsimp only
      split
      · rw [advance?_eq_some hpc hsize (Nat.le_succ 1)]
        rfl
      · rename_i hnext
        rw [Instr.decode_congr_of_readsNext hnext _ (c.memory.read (c.pc + 1))]
        rfl

/-- In a memory of fewer than `2 ^ 63` cells the sums fit, whatever the instruction pointer is. -/
theorem effect?_eq_some (hsize : c.memory.size < 2 ^ 63) : c.effect? = some c.effect := by
  rw [effect?, fetch?_eq_some hsize]
  cases hfetch : c.fetch with
  | error f =>
      rw [effect, hfetch]
      rfl
  | ok r =>
      obtain ⟨i, w⟩ := r
      have hfetches := fetch_eq_ok_iff.1 hfetch
      have hcells : w.cells ≤ 2 := by cases w <;> decide
      rw [effect_of_fetches hfetches]
      simp only [Option.bind_eq_bind, Option.bind_some,
        advance?_eq_some hfetches.pc_lt hsize hcells]
      cases i.operand <;> rfl

/-! ## Where the instruction pointer comes to -/

theorem Performs.pc_le (h : c.Performs next i c') (hpc : c.pc ≤ c.memory.size)
    (hnext : next ≤ c.memory.size) : c'.pc ≤ c.memory.size := by
  cases h with
  | halt => exact hpc
  | accumulate hop hv => exact hnext
  | store hop ha hold hmemory => exact hnext
  | branch hop hp ha hlt => exact Nat.le_of_lt hlt
  | pass hop hp => exact hnext

/-- A branch that is taken falls under no other rule, and its rule wants a cell. -/
theorem Performs.pc_lt_of_branches (h : c.Performs next i c') (hbranch : c.Branches i.op) :
    c'.pc < c.memory.size := by
  obtain ⟨p, hp, htaken⟩ := hbranch
  cases h with
  | halt => exact absurd hp (by simp [Opcode.branches?])
  | @accumulate op f x v hop hv =>
      cases op with
      | cpa | add | sub | mul => exact absurd hp (by simp [Opcode.branches?])
      | _ => exact absurd hop (by simp [Opcode.accumulates?])
  | @store op f x a old memory hop ha hold hmemory =>
      cases op with
      | inc | dec | sto => exact absurd hp (by simp [Opcode.branches?])
      | _ => exact absurd hop (by simp [Opcode.stores?])
  | branch hop hp ha hlt => exact hlt
  | pass hop hnot =>
      obtain rfl := Option.some.inj (hop.symm.trans hp)
      exact absurd htaken hnot

theorem exists_fetches {e? : Option Effect} (h : c.effect = .ok e?) : ∃ i w, c.Fetches i w := by
  obtain ⟨⟨i, w⟩, hfetch, -⟩ := Fault.bind_eq_ok_iff.1 h
  exact ⟨i, w, fetch_eq_ok_iff.1 hfetch⟩

/-- What is worked out for an instruction is by its rule; a halt changes nothing. -/
theorem Fetches.performs (hfetch : c.Fetches i w) {e? : Option Effect} (h : c.effect = .ok e?) :
    c.Performs (c.pc + w.cells) i (e?.elim c fun e => (c.apply e).1) := by
  rw [effect_of_fetches hfetch] at h
  rcases hfetch.halt_or with rfl | ⟨op, x, rfl, hop⟩
  · obtain rfl := Except.ok.inj h
    exact .halt
  · obtain ⟨e, rfl, hperforms⟩ := performs_of_effectOf hop h
    exact hperforms

end Core

/-! ## Completed instructions -/

namespace Machine

variable {m r : Machine} {x : Outcome}

/-- A machine that completes an instruction has worked out an effect, and its core is as that
    leaves it. -/
theorem Executes.exists_effect (h : m.Executes r x) (hactive : m.IsActive)
    (hok : ∀ f, x ≠ .faulted f) :
    ∃ e?, m.core.effect = .ok e? ∧ r.core = e?.elim m.core fun e => (m.core.apply e).1 := by
  cases h with
  | halted hs => rcases hactive with h | h <;> exact absurd (hs.symm.trans h) (by simp)
  | faulted hs => exact absurd rfl (hok _)
  | fault _ he => exact absurd rfl (hok _)
  | halt _ he => exact ⟨none, he, rfl⟩
  | @run e _ he => exact ⟨some e, he, rfl⟩

/-- An instruction that is completed leaves the instruction pointer on a cell or right behind the
    last one, and on a cell if it is a branch that is taken. -/
theorem pc_execute_le (hactive : m.IsActive) (hok : ∀ f, m.execute.2 ≠ .faulted f) :
    m.execute.1.core.pc ≤ m.execute.1.core.memory.size ∧
      ∀ i w, m.core.Fetches i w → m.core.Branches i.op →
        m.execute.1.core.pc < m.execute.1.core.memory.size := by
  obtain ⟨e?, heffect, hcore⟩ := m.executes_execute.exists_effect hactive hok
  have hsize : m.execute.1.core.memory.size = m.core.memory.size := by
    rw [hcore]
    cases e? with
    | none => rfl
    | some e => exact Core.size_apply m.core e
  rw [hsize, hcore]
  constructor
  · obtain ⟨i, w, hfetch⟩ := Core.exists_fetches heffect
    exact (hfetch.performs heffect).pc_le (Nat.le_of_lt hfetch.pc_lt) hfetch.add_le_size
  · intro i w hfetch hbranch
    exact (hfetch.performs heffect).pc_lt_of_branches hbranch

end Machine

/-! ## All sums -/

/-- No sum of addresses wraps around. In every pass over a text of `n` lines, in front of every
    statement and behind the last, no cursor, no start, no label, no cell of a line and no cell that
    is written is above `2 ^ 31 - 1 + 2 * n`; so for `n` below `2 ^ 62` passes and extents come out
    the same if they are worked out in 64 bits. Whatever the instruction pointer of a machine is,
    in a memory of fewer than `2 ^ 63` cells something is added to it only if it points to a cell,
    and that fits in 64 bits too; an instruction that is completed leaves it on a cell or right
    behind the last one, and a branch that is taken on a cell. -/
theorem sums_fit (source : String) (m : Machine) :
    let program := Source.program source
    let n := (Text.lines source).length
    (∀ k, Pass.StaysWithin (Pass.knownBefore program k) (Pass.linesBefore program k)
      (2 ^ 31 - 1 + 2 * n)) ∧
    (n < 2 ^ 62 → ∀ k, Pass.nth? program k = some (Pass.nth program k) ∧
      (Pass.nth program k).object.extent? = some (Pass.nth program k).object.extent) ∧
    (m.core.memory.size < 2 ^ 63 → m.core.effect? = some m.core.effect) ∧
    (m.IsActive → (∀ f, m.execute.2 ≠ .faulted f) →
      m.execute.1.core.pc ≤ m.execute.1.core.memory.size ∧
      ∀ i w, m.core.Fetches i w → m.core.Branches i.op →
        m.execute.1.core.pc < m.execute.1.core.memory.size) := by
  intro program n
  refine ⟨Source.staysWithin source, ?_, Core.effect?_eq_some, Machine.pc_execute_le⟩
  intro hn k
  exact ⟨Source.nth?_program_eq_some hn k, Source.extent?_program_eq_some hn k⟩

/-- A label one past the highest address that a line can name, and a pointer to which nothing can be
    added. -/
theorem sums_fit_highest_address :
    let source := "2147483647 HLT\nL: HLT\nBRA L"
    let program := Source.program source
    let c : Core := { memory := ⟨#[5000]⟩ }
    let m : Machine := { core := c, flags := {} }
    let far : Machine := { core := { c with pc := 2 ^ 64 - 1 }, flags := {} }
    (Text.lines source).length = 3 ∧
      Pass.nth? program 1 = some (Pass.nth program 1) ∧
      (Pass.nth program 1).symbols.address? "L" = some (2 ^ 31) ∧
      (Pass.nth program 1).object.extent? = some (2 ^ 31 + 3) ∧
      (∀ w ∈ (Pass.nth program 1).object.writes, w.1 ≤ 2 ^ 31 + 5) ∧
      far.core.effect? = some (.error (.outside (2 ^ 64 - 1))) ∧
      m.execute.1.core.pc < m.execute.1.core.memory.size := by
  intro source program c m far
  have hlength : (Text.lines source).length = 3 := by decide +kernel
  obtain ⟨hwithin, hsums, -, hpc⟩ := sums_fit source m
  obtain ⟨-, -, hfar, -⟩ := sums_fit source far
  obtain ⟨hpass, hextent⟩ := hsums (by rw [hlength]; decide) 1
  have hok : ∀ f, m.execute.2 ≠ .faulted f := by
    intro f h
    rw [show m.execute.2 = .ran by decide +kernel] at h
    exact absurd h (by simp)
  have hfetch : c.Fetches ⟨.bra, some ⟨.direct, 0⟩⟩ .packed := by
    refine .packed ⟨0, rfl, rfl⟩ ?_
    intro next
    exact Instr.decode_eq_packed_iff.2 (by decide +kernel)
  refine ⟨hlength, hpass, by decide +kernel, ?_, ?_, ?_, ?_⟩
  · rw [hextent]
    decide +kernel
  · intro w hw
    rw [Pass.nth_eq_run] at hw
    have hle := (hwithin 1).writes w hw
    rwa [hlength] at hle
  · rw [hfar (by decide)]
    decide +kernel
  · exact (hpc (.inl rfl) hok).2 _ _ hfetch ⟨_, rfl, trivial⟩

end DecimalMachine
