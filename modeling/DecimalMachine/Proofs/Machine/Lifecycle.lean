import DecimalMachine.Proofs.Machine.Operation
import Mathlib.Algebra.Group.Nat.Defs

set_option autoImplicit false

/-! # The life of a machine

Status, count, pause and the flag of a run are four fields that different operations change. What
they say of one another (`Consistent`) is kept by each instruction (`Consistent.execute`) and so by
every move of a run (`Consistent.run`), and is made anew where the program is set to its start
(`consistent_of_ready`). No operation does anything else to these fields (`Performs.proceeds`), so
it holds of every machine that can be reached (`Reached.consistent`). -/

namespace DecimalMachine

/-- What a pause says about the status: a run that paused at a halt came to one, and a run that
    paused at a breakpoint executed something. -/
def Pause.Fits (status : Status) : Pause → Prop
  | halt => status = .halted
  | breakpoint => status ≠ .ready
  | stopped => True
  | tripwire => True

namespace Machine

/-! ## Reachable machines -/

/-- A machine has come as far as another one, whatever else was done to it. -/
structure SameStanding (m m' : Machine) : Prop where
  status : m'.status = m.status
  executed : m'.executed = m.executed
  pause : m'.pause = m.pause
  running : m'.running = m.running

/-- The machines that can be reached from a new one, each with the number of instructions completed
    since its program was last set to the start. Only the count is not set by hand. -/
inductive Reached (seeding : Seeding) : Nat → Machine → Prop
  | new {flags : Flags} {m : Machine} : IsNew seeding flags m → Reached seeding 0 m
  | perform {n : Nat} {m m' : Machine} {op : Operation} :
      Reached seeding n m → Performs seeding m op m' → op.recounts = false →
      Reached seeding (if op.restarts then 0 else n + op.completed) m'
  /-- An edit by hand, of whatever does not say how far the machine has come. -/
  | edit {n : Nat} {m m' : Machine} :
      Reached seeding n m → m.SameStanding m' → Reached seeding n m'

variable {seeding : Seeding} {m m' : Machine} {n k : Nat}

/-! ## What the fields say of one another -/

/-- Status, count and pause of a machine that has completed `n` instructions since its program was
    set to the start. -/
structure Consistent (n : Nat) (m : Machine) : Prop where
  executed : m.executed = UInt64.ofNat n
  ready : m.status = .ready → n = 0
  started : m.status = .running ∨ m.status = .halted → 0 < n
  pause : ∀ p, m.pause = some p → p.Fits m.status

/-- A machine on which nothing has been executed. -/
theorem consistent_of_ready (hstatus : m.status = .ready) (hexecuted : m.executed = 0)
    (hpause : m.pause = none) : Consistent 0 m := by
  refine ⟨hexecuted, fun _ => rfl, ?_, ?_⟩
  · rw [hstatus]
    rintro (h | h) <;> exact absurd h (by simp)
  · rw [hpause]
    intro p hp
    exact absurd hp (by simp)

theorem Consistent.congr (h : Consistent n m) (hstatus : m'.status = m.status)
    (hexecuted : m'.executed = m.executed) (hpause : m'.pause = m.pause) : Consistent n m' := by
  obtain ⟨hcount, hready, hstarted, hfits⟩ := h
  rw [← hexecuted] at hcount
  rw [← hstatus] at hready hstarted
  rw [← hstatus, ← hpause] at hfits
  exact ⟨hcount, hready, hstarted, hfits⟩

theorem Outcome.status_ne_ready (x : Outcome) : x.status ≠ .ready := by
  cases x <;> exact fun h => absurd h (by simp [Outcome.status])

theorem Consistent.execute (h : Consistent n m) : Consistent (n + m.completed) m.execute.1 := by
  constructor
  · rw [executed_execute_add, h.executed, UInt64.ofNat_add]
  · intro hready
    rw [status_execute] at hready
    exact absurd hready (Outcome.status_ne_ready _)
  · rw [status_execute]
    intro hout
    cases houtcome : m.execute.2 with
    | ran =>
        rw [completed_of_ran houtcome]
        exact Nat.succ_pos n
    | halted =>
        rcases completed_of_halted houtcome with hone | hbefore
        · rw [hone]
          exact Nat.succ_pos n
        · -- a machine that has halted before completes nothing, but has completed its halt
          exact Nat.add_pos_left (h.started (.inr hbefore)) _
    | faulted f =>
        rw [houtcome] at hout
        exact absurd hout (by simp [Outcome.status])
  · -- the pause is that of the run before, and has to fit the status that there is now
    rw [(frame_execute m).pause]
    intro p hp
    have hfits := h.pause p hp
    cases p with
    | halt =>
        rw [execute_of_halted hfits]
        exact hfits
    | breakpoint =>
        show m.execute.1.status ≠ .ready
        rw [status_execute]
        exact Outcome.status_ne_ready _
    | stopped => trivial
    | tripwire => trivial

theorem Consistent.step (h : Consistent n m) : Consistent (n + m.completed) m.step.1 := by
  have hclear : Consistent n { m with journal := m.journal.clear } := h.congr rfl rfl rfl
  rw [step_eq]
  exact hclear.execute.congr rfl rfl rfl

/-! ## Runs -/

/-- What the place of a run says about the status. -/
def Point.Fits (status : Status) : Point → Prop
  | .checking => status = .running
  | .left (.ok p) => p.Fits status
  | _ => True

/-- What holds of a run on its way, after `n` instructions before it. -/
structure Course.Consistent {σ : Type} (n : Nat) (c : Course σ) : Prop where
  machine : c.machine.Consistent (n + c.count)
  pause : c.machine.pause = none
  fits : c.point.Fits c.machine.status

theorem Course.Consistent.move {σ : Type} {trip : Tripwire σ} {c d : Course σ}
    (hmove : Moves trip c d) (h : c.Consistent n) : d.Consistent n := by
  obtain ⟨hmachine, hpause, hfits⟩ := h
  cases hmove with
  | request => exact ⟨hmachine.congr rfl rfl rfl, hpause, hfits⟩
  | stopped => exact ⟨hmachine, hpause, trivial⟩
  | enter => exact ⟨hmachine, hpause, trivial⟩
  | ask =>
      refine ⟨?_, ?_, ?_⟩
      · dsimp only
        split
        · exact hmachine.congr rfl rfl rfl
        · exact hmachine
      · dsimp only
        split <;> exact hpause
      · dsimp only
        cases (trip _ _).1.goOn <;> exact trivial
  | @execute s m i =>
      refine ⟨?_, (frame_execute m).pause.trans hpause, ?_⟩
      · have hexecute := Machine.Consistent.execute hmachine
        rwa [Nat.add_assoc] at hexecute
      · dsimp only
        rw [status_execute]
        cases m.execute.2 with
        | ran => rfl
        | halted => rfl
        | faulted f => trivial
  | @check s m i =>
      refine ⟨hmachine, hpause, ?_⟩
      dsimp only
      split
      · -- what has been executed just now is still running
        show m.status ≠ .ready
        rw [show m.status = .running from hfits]
        exact fun h => absurd h (by simp)
      · trivial

/-- A run leaves the fields in agreement, whatever ended it. -/
theorem Consistent.run {σ : Type} {trip : Tripwire σ} {s s' : σ} {result : Except Fault Unit}
    (h : Consistent n m) (hruns : Runs trip s m s' k m' result) : Consistent (n + k) m' := by
  have hprepared : Consistent n m.prepare := by
    -- a run forgets the pause of the run before
    refine ⟨h.executed, h.ready, h.started, ?_⟩
    intro p hp
    exact absurd hp (by simp [prepare])
  obtain ⟨r, reason, hleft, hfinish⟩ := hruns.exists_left (P := Course.Consistent n)
    ⟨hprepared, rfl, trivial⟩ fun c d hmove hc => hc.move hmove
  obtain ⟨hmachine, hpause, hfits⟩ := hleft
  obtain ⟨rfl, -⟩ := Prod.mk.inj hfinish
  cases reason with
  | error f => exact hmachine.congr rfl rfl rfl
  | ok p =>
      refine ⟨hmachine.executed, hmachine.ready, hmachine.started, ?_⟩
      intro q hq
      obtain rfl := Option.some.inj hq
      exact hfits

/-! ## Sequences of operations -/

theorem Consistent.perform {op : Operation} (h : Consistent n m)
    (hperforms : Performs seeding m op m') (hop : op.recounts = false) :
    Consistent (if op.restarts then 0 else n + op.completed) m' := by
  cases hperforms.proceeds with
  | restart hrestarts hstatus hexecuted hpause =>
      rw [hrestarts]
      exact consistent_of_ready hstatus hexecuted hpause
  | step hrestarts hcompleted hstep =>
      rw [hrestarts, hcompleted, hstep]
      exact h.step
  | run hrestarts hruns =>
      rw [hrestarts]
      exact h.run hruns
  | stay hrestarts hcompleted hstatus hexecuted hpause =>
      rw [hrestarts, hcompleted]
      exact h.congr hstatus (hexecuted hop) hpause

theorem Reached.consistent (h : Reached seeding n m) : Consistent n m ∧ m.running = false := by
  induction h with
  | new hnew =>
      cases hnew
      exact ⟨consistent_of_ready rfl rfl rfl, rfl⟩
  | perform _ hperforms hop ih =>
      exact ⟨ih.1.perform hperforms hop, hperforms.keeps.running ih.2⟩
  | edit _ hsame ih =>
      exact ⟨ih.1.congr hsame.status hsame.executed hsame.pause, hsame.running.trans ih.2⟩

/-- What can be relied on between any two operations, whatever was done to the machine before, as
    long as its count has not come round. The count is the number of instructions since the program
    was set to its start. A machine that is ready has executed none and paused neither at a halt nor
    at a breakpoint; one that runs or has halted has executed some; one that paused at a halt has
    halted, and has not paused at a breakpoint as well; and no one who asks finds it in a run. -/
theorem fields_of_reached (h : Reached seeding n m) (hn : n < 2 ^ 64) :
    m.executed.toNat = n ∧
    (m.status = .ready →
      m.executed = 0 ∧ m.pause ≠ some .halt ∧ m.pause ≠ some .breakpoint) ∧
    (m.status = .running ∨ m.status = .halted → 1 ≤ m.executed.toNat) ∧
    (m.pause = some .halt → m.status = .halted) ∧
    ¬ (m.pause = some .halt ∧ m.pause = some .breakpoint) ∧
    m.running = false := by
  obtain ⟨⟨hexecuted, hready, hstarted, hpause⟩, hrunning⟩ := h.consistent
  have hcount : m.executed.toNat = n := by
    rw [hexecuted]
    exact UInt64.toNat_ofNat_of_lt' hn
  refine ⟨hcount, ?_, ?_, hpause .halt, ?_, hrunning⟩
  · intro hstatus
    refine ⟨?_, ?_, fun hp => hpause .breakpoint hp hstatus⟩
    · rw [hexecuted, hready hstatus]
      rfl
    · intro hp
      have hhalted : m.status = .halted := hpause .halt hp
      rw [hstatus] at hhalted
      exact absurd hhalted (by simp)
  · rw [hcount]
    exact hstarted
  · rintro ⟨hhalt, hbreak⟩
    rw [hhalt] at hbreak
    exact absurd hbreak (by simp)

/-- A stop asked for from elsewhere right after the first instruction of a run. -/
theorem fields_of_reached_stopped :
    ∃ m, Reached (fun _ _ => 0) 1 m ∧ m.status = .running ∧ m.pause = some .stopped ∧
      1 ≤ m.executed.toNat ∧ m.running = false := by
  have hmade : IsNew (fun _ _ => 0) { capacity := 1, fill := .known 9115 } _ :=
    .mk (fun _ => 0) 0
  obtain ⟨m, hnew, hran, hbreak⟩ : ∃ m, Reached (fun _ _ => 0) 0 m ∧
      m.prepare.execute.2 = .ran ∧ m.prepare.execute.1.atBreakpoint = false :=
    ⟨_, .new hmade, by decide +kernel, by decide +kernel⟩
  let paused : Machine := m.prepare.execute.1.stopBy m.stopHandle
  have hexecute : Moves unconditional ⟨.executing, (), m.prepare, 0⟩
      ⟨.checking, (), m.prepare.execute.1, 1⟩ := by
    have hmove : Moves unconditional ⟨.executing, (), m.prepare, 0⟩ _ := .execute
    rwa [hran, completed_of_ran hran] at hmove
  have hcheck : Moves unconditional ⟨.checking, (), paused, 1⟩ ⟨.top, (), paused, 1⟩ := by
    have hmove : Moves unconditional ⟨.checking, (), paused, 1⟩ _ := .check
    rwa [show paused.atBreakpoint = false from hbreak, if_neg Bool.false_ne_true] at hmove
  have hstopped : paused.running = false := by
    have hswitch : m.prepare.execute.1.switch = m.switch :=
      (frame_execute m.prepare).setup.switch
    simp [paused, stopBy, stopHandle, hswitch]
  have hasked : Relation.ReflTransGen (Moves unconditional) (m.begun ())
      ⟨.executing, (), m.prepare, 0⟩ :=
    (Relation.ReflTransGen.single (.enter rfl)).tail .ask
  have hruns : Runs unconditional () m () 1 (paused.finish (.ok .stopped)).1 (.ok ()) :=
    ⟨_, _, (((hasked.tail hexecute).tail (.request _)).tail hcheck).tail (.stopped hstopped), rfl⟩
  have hreached : Reached (fun _ _ => 0) (0 + 1) (paused.finish (.ok .stopped)).1 :=
    .perform hnew (.run hruns) rfl
  obtain ⟨-, -, hstarted, -, -, hrunning⟩ := fields_of_reached hreached (by decide)
  have hstatus : (paused.finish (.ok .stopped)).1.status = .running :=
    (status_execute m.prepare).trans (congrArg Outcome.status hran)
  exact ⟨_, hreached, hstatus, rfl, hstarted (.inl hstatus), hrunning⟩

end Machine

end DecimalMachine
