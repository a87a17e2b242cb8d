import DecimalMachine.Proofs.Machine.Step
import Mathlib.Logic.Relation

set_option autoImplicit false

/-! # The course of a run

A request to stop comes from elsewhere as a rule, and at any time. So a run is taken apart here into
moves that are small enough for a request to fall between any two of them (`Moves`): a look whether
a stop was asked for, a call of the tripwire, an instruction, a look for breakpoints. A run of the
machine is such a course without requests (`runs_of_runUnder`), and what every move preserves holds
at the end of a run whenever it was asked to stop. The course counts instructions without a bound;
the machine counts the same ones modulo `2 ^ 64` (`executed_execute_add`). -/

namespace DecimalMachine.Machine

/-! ## Completed instructions -/

/-- How many instructions are completed when the machine executes the next one: none if that one
    faults, and none if the machine has halted or faulted before. -/
def completed (m : Machine) : Nat :=
  match m.status with
  | .ready | .running => if m.core.effect.isOk then 1 else 0
  | .halted | .faulted _ => 0

theorem completed_of_isActive {m : Machine} (h : m.IsActive) :
    m.completed = if m.core.effect.isOk then 1 else 0 := by
  unfold completed
  rcases h with hs | hs <;> rw [hs]

theorem Executes.executed_add {m r : Machine} {x : Outcome} (h : m.Executes r x) :
    r.executed = m.executed + UInt64.ofNat m.completed := by
  cases h with
  | halted hs =>
      rw [completed, hs]
      exact (UInt64.add_zero _).symm
  | faulted hs =>
      rw [completed, hs]
      exact (UInt64.add_zero _).symm
  | fault hactive he =>
      rw [completed_of_isActive hactive, he]
      exact (UInt64.add_zero _).symm
  | halt hactive he =>
      rw [completed_of_isActive hactive, he]
      rfl
  | run hactive he =>
      rw [completed_of_isActive hactive, he]
      rfl

/-- An instruction that ran has been completed. So has a halt, unless the machine has halted before
    it. -/
theorem Executes.completed_eq_one {m r : Machine} {x : Outcome} (h : m.Executes r x) :
    (x = .ran → m.completed = 1) ∧ (x = .halted → m.completed = 1 ∨ m.status = .halted) := by
  cases h with
  | halted hs => exact ⟨nofun, fun _ => .inr hs⟩
  | faulted => exact ⟨nofun, nofun⟩
  | fault => exact ⟨nofun, nofun⟩
  | halt hactive he =>
      rw [completed_of_isActive hactive, he]
      exact ⟨nofun, fun _ => .inl rfl⟩
  | run hactive he =>
      rw [completed_of_isActive hactive, he]
      exact ⟨fun _ => rfl, nofun⟩

theorem executed_execute_add (m : Machine) :
    m.execute.1.executed = m.executed + UInt64.ofNat m.completed :=
  m.executes_execute.executed_add

theorem completed_of_ran {m : Machine} (h : m.execute.2 = .ran) : m.completed = 1 :=
  m.executes_execute.completed_eq_one.1 h

theorem completed_of_halted {m : Machine} (h : m.execute.2 = .halted) :
    m.completed = 1 ∨ m.status = .halted :=
  m.executes_execute.completed_eq_one.2 h

/-! ## Moves -/

/-- Where a run is in its loop. -/
inductive Point
  /-- Before the look whether a stop was asked for. -/
  | top
  /-- Before the call of the tripwire. -/
  | asking
  /-- Before an instruction. -/
  | executing
  /-- Before the look for breakpoints. -/
  | checking
  /-- Out of the loop, for a reason. -/
  | left (reason : Except Fault Pause)

/-- A run on its way: where it is, the state of its tripwire, the machine, and how many
    instructions have been completed. -/
structure Course (σ : Type) where
  point : Point
  state : σ
  machine : Machine
  count : Nat

/-- One move of a run under a tripwire, or a request to stop that comes in from elsewhere, through
    any handle. -/
inductive Moves {σ : Type} (trip : Tripwire σ) : Course σ → Course σ → Prop
  | request {p : Point} {s : σ} {m : Machine} {n : Nat} (h : StopHandle) :
      Moves trip ⟨p, s, m, n⟩ ⟨p, s, m.stopBy h, n⟩
  | stopped {s : σ} {m : Machine} {n : Nat} : m.running = false →
      Moves trip ⟨.top, s, m, n⟩ ⟨.left (.ok .stopped), s, m, n⟩
  | enter {s : σ} {m : Machine} {n : Nat} : m.running = true →
      Moves trip ⟨.top, s, m, n⟩ ⟨.asking, s, m, n⟩
  | ask {s : σ} {m : Machine} {n : Nat} :
      Moves trip ⟨.asking, s, m, n⟩
        ⟨if (trip s m).1.goOn then .executing else .left (.ok .tripwire), (trip s m).2,
          if (trip s m).1.stop then m.stop else m, n⟩
  | execute {s : σ} {m : Machine} {n : Nat} :
      Moves trip ⟨.executing, s, m, n⟩
        ⟨match m.execute.2 with
          | .ran => .checking
          | .halted => .left (.ok .halt)
          | .faulted f => .left (.error f), s, m.execute.1, n + m.completed⟩
  | check {s : σ} {m : Machine} {n : Nat} :
      Moves trip ⟨.checking, s, m, n⟩
        ⟨if m.atBreakpoint then .left (.ok .breakpoint) else .top, s, m, n⟩

/-- The course of a run of a machine, before its first move. -/
def begun {σ : Type} (m : Machine) (s : σ) : Course σ :=
  ⟨.top, s, m.prepare, 0⟩

/-- A whole run: from the machine made ready for it, out of the loop for some reason, to the machine
    after it and its answer. It has completed `n` instructions, and its tripwire has come from the
    state `s` to the state `s'`. -/
def Runs {σ : Type} (trip : Tripwire σ) (s : σ) (m : Machine) (s' : σ) (n : Nat) (m' : Machine)
    (result : Except Fault Unit) : Prop :=
  ∃ r reason, Relation.ReflTransGen (Moves trip) (m.begun s) ⟨.left reason, s', r, n⟩ ∧
    r.finish reason = (m', result)

/-- The tripwire of a run that has none. -/
def unconditional : Tripwire Unit := fun _ _ => (⟨true, false⟩, ())

/-- The tripwire of a run of at most `limit` instructions that begins at a count. -/
def limited (first limit : UInt64) : Tripwire Unit :=
  fun _ m => (⟨m.executed - first < limit, false⟩, ())

section Moves

variable {σ : Type} {trip : Tripwire σ} {s s' : σ} {m m' : Machine}

/-- What every move preserves holds wherever a course comes, if it holds where it begins. -/
theorem Moves.preserves {P : Course σ → Prop} {c d : Course σ}
    (h : Relation.ReflTransGen (Moves trip) c d) (hmoves : ∀ c d, Moves trip c d → P c → P d)
    (hstart : P c) : P d := by
  induction h with
  | refl => exact hstart
  | tail _ hmove ih => exact hmoves _ _ hmove ih

/-- What a move leaves alone. -/
theorem Moves.frame {c d : Course σ} (h : Moves trip c d) :
    d.machine.SameSetup c.machine ∧ d.machine.journal.inboxes = c.machine.journal.inboxes := by
  cases h with
  | ask =>
      dsimp only
      split <;> exact ⟨⟨rfl, rfl, rfl, rfl, rfl⟩, rfl⟩
  | execute => exact ⟨(frame_execute _).setup, (frame_execute _).inboxes⟩
  | _ => exact ⟨⟨rfl, rfl, rfl, rfl, rfl⟩, rfl⟩

/-- The machine of a course has the settings and the inboxes of the machine that was to run. -/
theorem Moves.frame_all {d : Course σ} (h : Relation.ReflTransGen (Moves trip) (m.begun s) d) :
    d.machine.SameSetup m ∧ d.machine.journal.inboxes = m.journal.inboxes := by
  refine Moves.preserves
    (P := fun c => c.machine.SameSetup m ∧ c.machine.journal.inboxes = m.journal.inboxes) h ?_
    ⟨⟨rfl, rfl, rfl, rfl, rfl⟩, rfl⟩
  rintro c d hmove ⟨hsetup, hinboxes⟩
  exact ⟨hmove.frame.1.trans hsetup, hmove.frame.2.trans hinboxes⟩

/-- A run takes back its flag at the end, also after a fault, and leaves the settings alone. -/
theorem Runs.frame {n : Nat} {result : Except Fault Unit} (h : Runs trip s m s' n m' result) :
    m'.running = false ∧ m'.SameSetup m := by
  obtain ⟨r, reason, hmoves, hfinish⟩ := h
  obtain ⟨hstart, hsymbols, hflags, hbreakpoints, hswitch⟩ := (Moves.frame_all hmoves).1
  obtain ⟨rfl, -⟩ := Prod.mk.inj hfinish
  cases reason <;> exact ⟨rfl, hstart, hsymbols, hflags, hbreakpoints, hswitch⟩

end Moves

/-! ## Runs of the machine -/

section Run

variable {σ : Type} {trip : Tripwire σ} {s s' : σ} {m m' : Machine} {steps : Nat}

open Relation.ReflTransGen in
/-- The loop of a run makes moves. -/
theorem moves_of_go {x : Except Fault Pause} (h : go trip steps s m = some (m', s', x)) (k : Nat) :
    ∃ n, Relation.ReflTransGen (Moves trip) ⟨.top, s, m, k⟩ ⟨.left x, s', m', n⟩ := by
  induction steps generalizing s m k with
  | zero => exact absurd h (by simp [go])
  | succ steps ih =>
      unfold go at h
      dsimp only at h
      split at h
      · rename_i hstopped
        cases h
        exact ⟨k, single (.stopped (by simpa using hstopped))⟩
      · rename_i hrunning
        -- one round is the moves `enter`, `ask`, `execute` and `check`, as far as it comes
        have hask : Moves trip ⟨.asking, s, m, k⟩ _ := .ask
        have hasked := (single (.enter (by simpa using hrunning))).tail hask
        split at h
        · rename_i hgoOn
          cases h
          rw [if_neg (by simpa using hgoOn)] at hasked
          exact ⟨k, hasked⟩
        · rename_i hgoOn
          rw [if_pos (by simpa using hgoOn)] at hasked
          have hexecuted := hasked.tail .execute
          split at h <;> rename_i heq <;> rw [heq] at hexecuted
          · cases h
            exact ⟨_, hexecuted⟩
          · cases h
            exact ⟨_, hexecuted⟩
          · have hchecked := hexecuted.tail .check
            split at h <;> rename_i hbreak
            · cases h
              rw [if_pos hbreak] at hchecked
              exact ⟨_, hchecked⟩
            · rw [if_neg hbreak] at hchecked
              obtain ⟨n, hrest⟩ := ih h _
              exact ⟨n, hchecked.trans hrest⟩

theorem runs_of_runUnder {result : Except Fault Unit}
    (h : runUnder trip steps s m = some (m', s', result)) : ∃ n, Runs trip s m s' n m' result := by
  obtain ⟨⟨r, t, reason⟩, hgo, heq⟩ := Option.map_eq_some_iff.1 h
  obtain ⟨n, hmoves⟩ := moves_of_go hgo 0
  obtain ⟨hmachine, hrest⟩ := Prod.mk.inj heq
  obtain ⟨rfl, hanswer⟩ := Prod.mk.inj hrest
  exact ⟨n, r, reason, hmoves, Prod.ext hmachine hanswer⟩

theorem runs_of_run {result : Except Fault Unit} (h : run steps m = some (m', result)) :
    ∃ n, Runs unconditional () m () n m' result := by
  obtain ⟨⟨r, s, x⟩, hrun, heq⟩ := Option.map_eq_some_iff.1 h
  obtain ⟨rfl, rfl⟩ := Prod.mk.inj heq
  exact runs_of_runUnder hrun

theorem runs_of_runAtMost {limit : UInt64} {result : Except Fault Unit}
    (h : runAtMost limit m = some (m', result)) :
    ∃ n, Runs (limited m.executed limit) () m () n m' result := by
  obtain ⟨⟨r, s, x⟩, hrun, heq⟩ := Option.map_eq_some_iff.1 h
  obtain ⟨rfl, rfl⟩ := Prod.mk.inj heq
  exact runs_of_runUnder hrun

/-- What every move preserves holds out of the loop. -/
theorem Runs.exists_left {P : Course σ → Prop} {n : Nat} {result : Except Fault Unit}
    (h : Runs trip s m s' n m' result) (hstart : P (m.begun s))
    (hmoves : ∀ c d, Moves trip c d → P c → P d) :
    ∃ r reason, P ⟨.left reason, s', r, n⟩ ∧ r.finish reason = (m', result) := by
  obtain ⟨r, reason, hleft, hfinish⟩ := h
  exact ⟨r, reason, Moves.preserves hleft hmoves hstart, hfinish⟩

end Run

end DecimalMachine.Machine
