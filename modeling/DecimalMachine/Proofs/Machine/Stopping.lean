import DecimalMachine.Proofs.Machine.Course

set_option autoImplicit false

/-! # Requests to stop

What a request to stop does to a run on its way. If it is made through a handle of the machine, the
flag is down from then on, whatever else happens; at most the instruction that is due before the
run looks at its flag again is still executed (`Course.Halting`), and the run leaves its loop
(`leaves_of_running_eq_false`). A handle that does this at any moment of any run is a handle of the
machine, and a handle of the machine does it (`obeys_iff`). -/

namespace DecimalMachine.Machine

variable {σ : Type} {trip : Tripwire σ} {m : Machine} {c d e : Course σ} {h : StopHandle}

/-! ## Handles -/

theorem stopBy_stopHandle (m : Machine) : m.stopBy m.stopHandle = m.stop := by
  simp [stopBy, stopHandle, stop]

theorem completed_le_one (m : Machine) : m.completed ≤ 1 := by
  unfold completed
  cases m.status with
  | ready | running =>
      dsimp only
      split <;> simp
  | halted | faulted => exact Nat.zero_le 1

/-! ## After a request -/

/-- The course after a request that comes in at this moment. -/
def Course.request (c : Course σ) (h : StopHandle) : Course σ :=
  { c with machine := c.machine.stopBy h }

/-- How many instructions are due before the run looks at its flag again. -/
def Point.due : Point → Nat
  | .asking => 1
  | .executing => 1
  | _ => 0

/-- Where a run can be that was asked to stop at some moment. The flag is down. The instruction that
    was due at that moment may have been completed, and no other one; if none was due because the
    run was about to look at its flag, nothing has happened but that it looked. -/
structure Course.Halting (c d : Course σ) : Prop where
  running : d.machine.running = false
  count : d.count + d.point.due ≤ c.count + c.point.due
  idle : c.point = .top →
    d.machine = c.machine.stop ∧ (d.point = .top ∨ d.point = .left (.ok .stopped))

theorem Course.Halting.ne_top (h : c.Halting d) (htop : d.point ≠ .top)
    (hleft : d.point ≠ .left (.ok .stopped)) : c.point ≠ .top := by
  intro hc
  obtain ⟨-, hpoint | hpoint⟩ := h.idle hc
  · exact htop hpoint
  · exact hleft hpoint

theorem Course.Halting.move (hd : c.Halting d) (hmove : Moves trip d e) : c.Halting e := by
  have hne := hd.ne_top
  obtain ⟨hrunning, hcount, hidle⟩ := hd
  cases hmove with
  | @request p s r n h =>
      have hflag : r.stopBy h = r := by
        rw [stopBy, hrunning, Bool.false_and, ← hrunning]
      rw [hflag]
      exact ⟨hrunning, hcount, hidle⟩
  | stopped => exact ⟨hrunning, hcount, fun htop => ⟨(hidle htop).1, .inr rfl⟩⟩
  | enter hup =>
      rw [hrunning] at hup
      exact absurd hup Bool.false_ne_true
  | ask =>
      refine ⟨?_, ?_, fun htop => absurd htop (hne nofun nofun)⟩
      · dsimp only
        split
        · rfl
        · exact hrunning
      · refine Nat.le_trans (Nat.add_le_add_left ?_ _) hcount
        dsimp only
        split <;> simp [Point.due]
  | @execute s r n =>
      refine ⟨(frame_execute r).running.trans hrunning, ?_,
        fun htop => absurd htop (hne nofun nofun)⟩
      -- after an instruction none is due
      refine Nat.le_trans (Nat.add_le_add_left (m := 0) ?_ _) ?_
      · dsimp only
        split <;> exact Nat.le_refl 0
      · have hdue : n + 1 ≤ c.count + c.point.due := hcount
        have hone := r.completed_le_one
        dsimp only
        omega
  | check =>
      refine ⟨hrunning, ?_, fun htop => absurd htop (hne nofun nofun)⟩
      dsimp only
      split <;> exact hcount

/-! ## Out of the loop -/

/-- The run can come out of its loop. -/
def Course.Leaves (trip : Tripwire σ) (c : Course σ) : Prop :=
  ∃ d reason, Relation.ReflTransGen (Moves trip) c d ∧ d.point = .left reason

theorem leaves_of_left {reason : Except Fault Pause} (hc : c.point = .left reason) :
    c.Leaves trip :=
  ⟨c, reason, .refl, hc⟩

theorem Course.Leaves.of_move (hmove : Moves trip c d) (hd : d.Leaves trip) : c.Leaves trip := by
  obtain ⟨e, reason, hmoves, he⟩ := hd
  exact ⟨e, reason, hmoves.head hmove, he⟩

/-- If the flag is down, the run comes out of its loop at the latest when it looks at it. -/
theorem leaves_of_running_eq_false (hrunning : c.machine.running = false) : c.Leaves trip := by
  have htop : ∀ (s : σ) (r : Machine) (n : Nat), r.running = false →
      Course.Leaves trip ⟨.top, s, r, n⟩ :=
    fun _ _ _ hr => .of_move (.stopped hr) (leaves_of_left rfl)
  have hchecking : ∀ (s : σ) (r : Machine) (n : Nat), r.running = false →
      Course.Leaves trip ⟨.checking, s, r, n⟩ := by
    intro s r n hr
    refine .of_move .check ?_
    split
    · exact leaves_of_left rfl
    · exact htop s r n hr
  have hexecuting : ∀ (s : σ) (r : Machine) (n : Nat), r.running = false →
      Course.Leaves trip ⟨.executing, s, r, n⟩ := by
    intro s r n hr
    refine .of_move .execute ?_
    split
    · exact hchecking _ _ _ ((frame_execute r).running.trans hr)
    · exact leaves_of_left rfl
    · exact leaves_of_left rfl
  obtain ⟨p, s, r, n⟩ := c
  cases p with
  | top => exact htop s r n hrunning
  | asking =>
      have hasked : (if (trip s r).1.stop then r.stop else r).running = false := by
        split
        · rfl
        · exact hrunning
      refine .of_move .ask ?_
      split
      · exact hexecuting _ _ _ hasked
      · exact leaves_of_left rfl
  | executing => exact hexecuting s r n hrunning
  | checking => exact hchecking s r n hrunning
  | left reason => exact leaves_of_left rfl

/-! ## Obeying a handle -/

/-- A machine obeys a handle: at every moment of every run of it, the handle shows whether the
    machine is in a run, and a request through the handle stops the run. -/
structure Obeys (m : Machine) (h : StopHandle) : Prop where
  shows : ∀ {σ : Type} (trip : Tripwire σ) (s : σ) (c : Course σ),
    Relation.ReflTransGen (Moves trip) (m.begun s) c →
    c.machine.isRunning h = c.machine.running
  stops : ∀ {σ : Type} (trip : Tripwire σ) (s : σ) (c d : Course σ),
    Relation.ReflTransGen (Moves trip) (m.begun s) c →
    Relation.ReflTransGen (Moves trip) (c.request h) d → c.Halting d ∧ d.Leaves trip

theorem obeys_stopHandle (m : Machine) : m.Obeys m.stopHandle := by
  constructor
  · intro σ trip s c hc
    have hswitch : c.machine.switch = m.switch := (Moves.frame_all hc).1.switch
    simp [isRunning, stopHandle, hswitch]
  · intro σ trip s c d hc hd
    have hswitch : c.machine.switch = m.switch := (Moves.frame_all hc).1.switch
    have hstop : c.machine.stopBy m.stopHandle = c.machine.stop := by
      rw [← stopBy_stopHandle, stopHandle, stopHandle, hswitch]
    have hstart : c.Halting (c.request m.stopHandle) := by
      rw [Course.request, hstop]
      exact ⟨rfl, Nat.le_refl _, fun htop => ⟨rfl, .inl htop⟩⟩
    have hhalting : c.Halting d :=
      Moves.preserves hd (fun _ _ hmove hx => hx.move hmove) hstart
    exact ⟨hhalting, leaves_of_running_eq_false hhalting.running⟩

/-- A machine obeys its own handles and no other ones. -/
theorem obeys_iff : m.Obeys h ↔ h = m.stopHandle := by
  constructor
  · intro hobeys
    -- one request before the first move of a run tells the flags apart
    have hrunning := (hobeys.stops unconditional () _ _ .refl .refl).1.running
    have hswitch : h.switch = m.switch := by
      simpa [Course.request, begun, prepare, stopBy] using hrunning
    exact congrArg StopHandle.mk hswitch
  · rintro rfl
    exact obeys_stopHandle m

end DecimalMachine.Machine
