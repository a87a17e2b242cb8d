import DecimalMachine.Proofs.Machine.Lifecycle
import DecimalMachine.Proofs.Machine.Recognition

set_option autoImplicit false

/-! # Machines at rest

A machine that has halted or faulted executes nothing any more: an instruction leaves it as it is
(`execute_of_not_isActive`), and so does a step or a run, but that the journal is empty afterwards
and a run notes why it ended (`Machine.idle`). What else can be done to such a machine changes its
cells and registers and not its status (`Continues.status_eq`). So it stays at rest until its
program is set to the start. -/

namespace DecimalMachine

/-! ## Status -/

namespace Status

/-- What the execution of a machine at rest answers. -/
def result : Status → Except Fault Unit
  | faulted f => .error f
  | _ => .ok ()

/-- Why a run of a machine at rest pauses, if it does. -/
def pause? : Status → Option Pause
  | halted => some .halt
  | _ => none

theorem pause?_eq_halt_iff (s : Status) : s.pause? = some .halt ↔ s = .halted := by
  cases s <;> simp [pause?]

end Status

namespace Machine

/-! ## Instructions -/

theorem not_isActive_iff {m : Machine} :
    ¬ m.IsActive ↔ m.status = .halted ∨ ∃ f, m.status = .faulted f := by
  unfold IsActive
  cases m.status <;> simp

theorem not_isActive_congr {m m' : Machine} (h : m'.status = m.status) (hinactive : ¬ m.IsActive) :
    ¬ m'.IsActive := by
  unfold IsActive
  rw [h]
  exact hinactive

/-- An instruction leaves a machine at rest as it is and reports once more how it came to rest. -/
theorem execute_of_not_isActive {m : Machine} (h : ¬ m.IsActive) :
    (m.status = .halted ∧ m.execute = (m, .halted)) ∨
      ∃ f, m.status = .faulted f ∧ m.execute = (m, .faulted f) := by
  rcases not_isActive_iff.1 h with hs | ⟨f, hs⟩
  · exact .inl ⟨hs, execute_of_halted hs⟩
  · exact .inr ⟨f, hs, execute_of_faulted hs⟩

theorem execute_eq_self {m : Machine} (h : ¬ m.IsActive) : m.execute.1 = m := by
  rcases execute_of_not_isActive h with ⟨-, heq⟩ | ⟨f, -, heq⟩ <;> rw [heq]

theorem completed_of_not_isActive {m : Machine} (h : ¬ m.IsActive) : m.completed = 0 := by
  unfold completed
  rcases not_isActive_iff.1 h with hs | ⟨f, hs⟩ <;> rw [hs]

/-! ## Idling -/

/-- A machine after an execution in which nothing happened. -/
def idle (m : Machine) (pause : Option Pause) (running : Bool) : Machine :=
  { m with journal := m.journal.clear, pause, running }

/-- Nothing has been executed, recorded or told on the way from one machine to another. -/
structure Idles (m m' : Machine) : Prop where
  snapshot : m'.snapshot = m.snapshot
  setup : m'.SameSetup m
  changes : m'.journal.changes = []
  registers : m'.journal.registers = false
  inboxes : m'.journal.inboxes = m.journal.inboxes

theorem idles_idle (m : Machine) (pause : Option Pause) (running : Bool) :
    Idles m (m.idle pause running) :=
  ⟨rfl, ⟨rfl, rfl, rfl, rfl, rfl⟩, m.journal.changes_clear, rfl, m.journal.inboxes_clear⟩

theorem step_of_not_isActive {m : Machine} (h : ¬ m.IsActive) :
    m.step = (m.idle m.pause m.running, m.status.result) := by
  obtain ⟨core, status, start, symbols, executed, pause, journal, running, flags, breakpoints⟩ := m
  rcases not_isActive_iff.1 h with hs | ⟨f, hs⟩
  · obtain rfl : status = .halted := hs
    rfl
  · obtain rfl : status = .faulted f := hs
    rfl

/-! ## Runs -/

section Run

variable {σ : Type} {trip : Tripwire σ} {s s' : σ} {m : Machine}

/-- A run of a machine at rest ends in its first round. -/
theorem go_of_not_isActive (trip : Tripwire σ) (s : σ) (h : ¬ m.IsActive) (steps : Nat) :
    ∃ running, go trip (steps + 1) s m.prepare =
      some (m.idle none running, (trip s m.prepare).2,
        if (trip s m.prepare).1.goOn then
          match m.status with
          | .faulted f => .error f
          | _ => .ok .halt
        else .ok .tripwire) := by
  obtain ⟨running, hasked⟩ : ∃ running,
      (if (trip s m.prepare).1.stop then m.prepare.stop else m.prepare) = m.idle none running := by
    split
    · exact ⟨false, rfl⟩
    · exact ⟨true, rfl⟩
  refine ⟨running, ?_⟩
  -- the flag is up in the first round, so that the tripwire is called before anything else
  have hrunning : (!m.prepare.running) = false := rfl
  unfold go
  simp only [hrunning, hasked, Bool.false_eq_true, if_false]
  cases (trip s m.prepare).1.goOn with
  | false => rfl
  | true =>
      have hidle : ¬ (m.idle none running).IsActive := h
      rcases execute_of_not_isActive hidle with ⟨hs, heq⟩ | ⟨f, hs, heq⟩
      · simp [heq, show m.status = .halted from hs]
      · simp [heq, show m.status = .faulted f from hs]

theorem runUnder_of_not_isActive (h : ¬ m.IsActive) (steps : Nat) :
    runUnder trip (steps + 1) s m =
      some (if (trip s m.prepare).1.goOn then
        (m.idle m.status.pause? false, (trip s m.prepare).2, m.status.result)
      else (m.idle (some .tripwire) false, (trip s m.prepare).2, .ok ())) := by
  obtain ⟨running, hgo⟩ := go_of_not_isActive trip s h steps
  rw [runUnder, hgo]
  cases (trip s m.prepare).1.goOn with
  | false => rfl
  | true =>
      rcases not_isActive_iff.1 h with hs | ⟨f, hs⟩
      · rw [hs]
        rfl
      · rw [hs]
        rfl

/-- Where the run of a machine at rest is, whoever asks it to stop and when: it has not come
    anywhere. -/
def Course.Idle (m : Machine) (c : Course σ) : Prop :=
  c.count = 0 ∧ ∃ running, c.machine = m.idle none running

theorem Course.Idle.move (h : ¬ m.IsActive) {c d : Course σ} (hmove : Moves trip c d)
    (hc : c.Idle m) : d.Idle m := by
  obtain ⟨p, s, r, n⟩ := c
  obtain ⟨hcount, running, hr⟩ := hc
  obtain rfl : n = 0 := hcount
  obtain rfl : r = m.idle none running := hr
  have hidle : ¬ (m.idle none running).IsActive := h
  cases hmove with
  | request => exact ⟨rfl, _, rfl⟩
  | stopped => exact ⟨rfl, running, rfl⟩
  | enter => exact ⟨rfl, running, rfl⟩
  | ask =>
      refine ⟨rfl, ?_⟩
      dsimp only
      split
      · exact ⟨false, rfl⟩
      · exact ⟨running, rfl⟩
  | execute =>
      exact ⟨(Nat.zero_add _).trans (completed_of_not_isActive hidle), running,
        execute_eq_self hidle⟩
  | check => exact ⟨rfl, running, rfl⟩

theorem Runs.eq_idle (h : ¬ m.IsActive) {m' : Machine} {n : Nat} {result : Except Fault Unit}
    (hruns : Runs trip s m s' n m' result) : n = 0 ∧ ∃ pause, m' = m.idle pause false := by
  obtain ⟨r, reason, ⟨hcount, running, hr⟩, hfinish⟩ := hruns.exists_left (P := Course.Idle m)
    ⟨rfl, true, rfl⟩ fun c d hmove hc => hc.move h hmove
  obtain rfl : r = m.idle none running := hr
  obtain ⟨rfl, -⟩ := Prod.mk.inj hfinish
  refine ⟨hcount, ?_⟩
  cases reason with
  | error f => exact ⟨none, rfl⟩
  | ok pause => exact ⟨some pause, rfl⟩

end Run

variable {m m' : Machine}

theorem run_of_not_isActive (h : ¬ m.IsActive) (steps : Nat) :
    m.run (steps + 1) = some (m.idle m.status.pause? false, m.status.result) := by
  rw [run, runUnder_of_not_isActive h, if_pos rfl]
  rfl

/-- The count of a machine at rest does not move, so only the limit 0 ends a run before it has
    begun. -/
theorem runAtMost_of_not_isActive (h : ¬ m.IsActive) (limit : UInt64) :
    m.runAtMost limit =
      some (if 0 < limit then (m.idle m.status.pause? false, m.status.result)
        else (m.idle (some .tripwire) false, .ok ())) := by
  have hgoOn : decide (m.prepare.executed - m.executed < limit) = decide (0 < limit) := by
    rw [show m.prepare.executed - m.executed = 0 from UInt64.sub_self _]
  unfold runAtMost
  dsimp only
  rw [runUnder_of_not_isActive h, hgoOn]
  by_cases hlimit : 0 < limit
  · rw [decide_eq_true hlimit, if_pos rfl, if_pos hlimit]
    rfl
  · rw [decide_eq_false hlimit, if_neg Bool.false_ne_true, if_neg hlimit]
    rfl

/-- How a machine answers that no execution moves: every execution idles, all of them report the
    status, and a run notes a halt if it came so far as to meet one. A run that is asked to stop,
    whenever that is, idles as well. -/
structure Rests (m : Machine) : Prop where
  step : Idles m m.step.1 ∧ m.step.2 = m.status.result
  course : ∀ (σ : Type) (trip : Tripwire σ) (s s' : σ) (n : Nat) (m' : Machine)
    (result : Except Fault Unit), Runs trip s m s' n m' result → n = 0 ∧ Idles m m'
  runUnder : ∀ (σ : Type) (trip : Tripwire σ) (s : σ) (steps : Nat), ∃ r, Idles m r ∧
    runUnder trip (steps + 1) s m =
      some (r, (trip s m.prepare).2,
        if (trip s m.prepare).1.goOn then m.status.result else .ok ()) ∧
    (r.pause = some .halt ↔ m.status = .halted ∧ (trip s m.prepare).1.goOn = true)
  run : ∀ steps, ∃ r, Idles m r ∧ m.run (steps + 1) = some (r, m.status.result) ∧
    (r.pause = some .halt ↔ m.status = .halted)
  runAtMost : ∀ limit, ∃ r, Idles m r ∧
    m.runAtMost limit = some (r, if 0 < limit then m.status.result else .ok ()) ∧
    (r.pause = some .halt ↔ m.status = .halted ∧ 0 < limit)

theorem rests_of_not_isActive (h : ¬ m.IsActive) : m.Rests := by
  constructor
  · rw [step_of_not_isActive h]
    exact ⟨idles_idle _ _ _, rfl⟩
  · intro σ trip s s' n m' result hruns
    obtain ⟨hn, pause, rfl⟩ := hruns.eq_idle h
    exact ⟨hn, idles_idle _ _ _⟩
  · intro σ trip s steps
    rw [runUnder_of_not_isActive h]
    split
    · rename_i hgoOn
      refine ⟨_, idles_idle _ _ _, rfl, ?_⟩
      rw [and_iff_left hgoOn]
      exact m.status.pause?_eq_halt_iff
    · rename_i hgoOn
      refine ⟨_, idles_idle _ _ _, rfl, ?_⟩
      simp [idle, hgoOn]
  · intro steps
    exact ⟨_, idles_idle _ _ _, run_of_not_isActive h steps, m.status.pause?_eq_halt_iff⟩
  · intro limit
    rw [runAtMost_of_not_isActive h]
    split
    · rename_i hlimit
      refine ⟨_, idles_idle _ _ _, rfl, ?_⟩
      rw [and_iff_left hlimit]
      exact m.status.pause?_eq_halt_iff
    · rename_i hlimit
      refine ⟨_, idles_idle _ _ _, rfl, ?_⟩
      simp [idle, hlimit]

/-! ## Staying at rest -/

/-- Whatever can be done to a machine without setting its program to the start. -/
inductive Continues (seeding : Seeding) : Machine → Machine → Prop
  | perform {m m' : Machine} {op : Operation} :
      Performs seeding m op m' → op.restarts = false → Continues seeding m m'
  /-- An edit by hand, of whatever does not say how far the machine has come. -/
  | edit {m m' : Machine} : m.SameStanding m' → Continues seeding m m'

variable {seeding : Seeding}

theorem Continues.status_eq (h : Continues seeding m m') (hinactive : ¬ m.IsActive) :
    m'.status = m.status := by
  cases h with
  | edit hsame => exact hsame.status
  | perform hperforms hop =>
      cases hperforms.proceeds with
      | restart hrestarts =>
          rw [hop] at hrestarts
          exact absurd hrestarts Bool.false_ne_true
      | step _ _ hstep =>
          rw [hstep, step_of_not_isActive hinactive]
          rfl
      | run _ hruns =>
          obtain ⟨-, pause, rfl⟩ := hruns.eq_idle hinactive
          rfl
      | stay _ _ hstatus => exact hstatus

theorem status_eq_of_continues (hinactive : ¬ m.IsActive)
    (h : Relation.ReflTransGen (Continues seeding) m m') : m'.status = m.status := by
  induction h with
  | refl => rfl
  | tail _ hnext ih => exact (hnext.status_eq (not_isActive_congr ih hinactive)).trans ih

/-- A machine that has halted or faulted keeps its status, and no execution moves it, whatever is
    done to it short of setting its program to the start; and that makes it ready, with nothing
    executed. -/
theorem rests_until_restart (hinactive : ¬ m.IsActive)
    (h : Relation.ReflTransGen (Continues seeding) m m') :
    m'.status = m.status ∧ m'.Rests ∧
      ∀ op m'', Performs seeding m' op m'' → op.restarts = true →
        m''.status = .ready ∧ m''.executed = 0 := by
  have hstatus := status_eq_of_continues hinactive h
  refine ⟨hstatus, rests_of_not_isActive (not_isActive_congr hstatus hinactive), ?_⟩
  intro op m'' hperforms hop
  exact hperforms.fresh hop

/-- To put an instruction in the place of the word that faulted does not help. -/
theorem rests_until_restart_mended_word :
    ∃ m m' : Machine, m.status = .faulted (.unrecognized 7) ∧ m.setMemory [9115] = .ok m' ∧
      m'.core.fetch.toOption.isSome ∧ m'.step.2 = .error (.unrecognized 7) ∧
      Idles m' m'.step.1 := by
  obtain ⟨m, hstatus, m', hset, hfetch⟩ : ∃ m : Machine, m.status = .faulted (.unrecognized 7) ∧
      ∃ m', m.setMemory [9115] = .ok m' ∧ m'.core.fetch.toOption.isSome :=
    ⟨(new default 0 { capacity := 1, fill := .known 7 }).step.1, by decide +kernel, _, rfl,
      by decide +kernel⟩
  have hinactive : ¬ m.IsActive := not_isActive_iff.2 (.inr ⟨_, hstatus⟩)
  have hcontinues : Continues (fun _ _ => 0) m m' := .perform (.setMemory hset) rfl
  obtain ⟨hsame, hrests, -⟩ := rests_until_restart hinactive (.single hcontinues)
  obtain ⟨hidles, hresult⟩ := hrests.step
  rw [hsame, hstatus] at hresult
  exact ⟨m, m', hstatus, hset, hfetch, hresult, hidles⟩

end Machine

end DecimalMachine
