import DecimalMachine.Proofs.Machine.Step

set_option autoImplicit false

/-! # Runs as steps

A run is single steps one after the other, up to the first point at which something ends it. What
can end it after `k` steps is tested in a fixed order (`Watch.ending?`): a breakpoint, unless no
step was taken yet, a stop that was asked for, the tripwire, and then the next step itself, if it
halts or faults. The loop of a run keeps to the machine after `k` steps and collects what the
steps record (`Follows`), so it ends where the steps say, with their records joined and told to
the subscribers once. -/

namespace DecimalMachine.Machine

/-! ## Watches -/

/-- A tripwire that sees the number of the call, counted from 1, and what execution has come to. -/
abbrev Watch := Nat → Snapshot → Verdict

/-- How a run ended: after how many steps and calls of the tripwire, and why. -/
structure Ending where
  steps : Nat
  calls : Nat
  reason : Except Fault Pause

namespace Watch

variable (w : Watch) (m : Machine)

/-- A watch as a tripwire; its state is the number of the next call. -/
def tripwire (w : Watch) : Tripwire Nat := fun call m =>
  (w call m.snapshot, call + 1)

/-- Whether a stop was asked for in one of the first `k` calls; call `i + 1` sees the machine after
    `i` steps. -/
def stopped (k : Nat) : Bool :=
  (List.range k).any fun i => (w (i + 1) (m.after i).snapshot).stop

/-- What ends a run after `k` steps, or in the step after them, if it has not ended before. -/
def ending? (k : Nat) : Option Ending :=
  if 0 < k ∧ (m.after k).atBreakpoint = true then some ⟨k, k, .ok .breakpoint⟩
  else if w.stopped m k then some ⟨k, k, .ok .stopped⟩
  else if !(w (k + 1) (m.after k).snapshot).goOn then some ⟨k, k + 1, .ok .tripwire⟩
  else
    match (m.after (k + 1)).status with
    | .halted => some ⟨k + 1, k + 1, .ok .halt⟩
    | .faulted f => some ⟨k + 1, k + 1, .error f⟩
    | .ready | .running => none

/-- The first point at which anything ends a run. -/
def Ends (k : Nat) (e : Ending) : Prop :=
  (∀ i < k, w.ending? m i = none) ∧ w.ending? m k = some e

theorem stopped_succ (k : Nat) :
    w.stopped m (k + 1) = (w.stopped m k || (w (k + 1) (m.after k).snapshot).stop) := by
  simp [stopped, List.range_succ]

end Watch

/-! ## Following the steps -/

variable {m r : Machine} {k : Nat}

/-- A machine in a run after `k` steps: what execution has come to is the same as after the steps
    one by one, and what they recorded is recorded together and not told yet. -/
structure Follows (m : Machine) (k : Nat) (r : Machine) : Prop where
  snapshot : r.snapshot = (m.after k).snapshot
  setup : r.SameSetup m
  pause : r.pause = none
  inboxes : r.journal.inboxes = m.journal.inboxes
  cells : ∀ a, r.journal.hasChanged a =
    (List.range k).any fun i => (m.after (i + 1)).journal.hasChanged a
  registers : r.journal.registers =
    (List.range k).any fun i => (m.after (i + 1)).journal.registers

theorem follows_prepare (m : Machine) : Follows m 0 m.prepare := by
  refine ⟨rfl, ⟨rfl, rfl, rfl, rfl, rfl⟩, rfl, rfl, ?_, rfl⟩
  intro a
  exact Journal.hasChanged_clear m.journal a

theorem Follows.stop (h : Follows m k r) : Follows m k r.stop :=
  have hsetup : r.stop.SameSetup r := ⟨rfl, rfl, rfl, rfl, rfl⟩
  ⟨h.snapshot, hsetup.trans h.setup, h.pause, h.inboxes, h.cells, h.registers⟩

theorem Follows.execute (h : Follows m k r) : Follows m (k + 1) r.execute.1 := by
  have hframe := frame_execute r
  have hjoins := joins_after h.snapshot
  constructor
  · exact snapshot_execute h.snapshot
  · exact hframe.setup.trans h.setup
  · exact hframe.pause.trans h.pause
  · exact hframe.inboxes.trans h.inboxes
  · intro a
    simp [hjoins.cells a, h.cells a, List.range_succ]
  · simp [hjoins.registers, h.registers, List.range_succ]

/-- A machine at the start of a turn of the loop, when nothing has ended the run. -/
structure Watch.AtTop (w : Watch) (m : Machine) (k : Nat) (r : Machine) : Prop where
  follows : Follows m k r
  running : r.running = !w.stopped m k
  passed : ¬ (0 < k ∧ (m.after k).atBreakpoint = true)

/-- The machine in a turn of the loop, after the tripwire was asked. -/
def Watch.asked (w : Watch) (k : Nat) (r : Machine) : Machine :=
  if (w (k + 1) r.snapshot).stop then r.stop else r

section Loop

variable {w : Watch} {e : Ending}

theorem Follows.asked (h : Follows m k r) : Follows m k (w.asked k r) := by
  unfold Watch.asked
  split
  · exact h.stop
  · exact h

theorem running_asked (r : Machine) :
    (w.asked k r).running = (r.running && !(w (k + 1) r.snapshot).stop) := by
  unfold Watch.asked
  cases (w (k + 1) r.snapshot).stop with
  | true => exact (Bool.and_false _).symm
  | false => exact (Bool.and_true _).symm

theorem go_stopped (hrunning : r.running = false) (fuel : Nat) :
    go w.tripwire (fuel + 1) (k + 1) r = some (r, k + 1, .ok .stopped) := by
  simp [go, hrunning]

theorem go_tripwire (hrunning : r.running = true) (hgoOn : (w (k + 1) r.snapshot).goOn = false)
    (fuel : Nat) :
    go w.tripwire (fuel + 1) (k + 1) r = some (w.asked k r, k + 2, .ok .tripwire) := by
  simp only [go, hrunning, Watch.tripwire, hgoOn, Bool.not_true, Bool.not_false,
    Bool.false_eq_true, if_false, if_true]
  rfl

theorem go_execute (hrunning : r.running = true) (hgoOn : (w (k + 1) r.snapshot).goOn = true)
    (fuel : Nat) :
    go w.tripwire (fuel + 1) (k + 1) r =
      match (w.asked k r).execute.2 with
      | .halted => some ((w.asked k r).execute.1, k + 2, .ok .halt)
      | .faulted f => some ((w.asked k r).execute.1, k + 2, .error f)
      | .ran =>
          if (w.asked k r).execute.1.atBreakpoint then
            some ((w.asked k r).execute.1, k + 2, .ok .breakpoint)
          else go w.tripwire fuel (k + 2) (w.asked k r).execute.1 := by
  have hverdict : (w.tripwire (k + 1) r).1.goOn = true := hgoOn
  have hasked : (if (w.tripwire (k + 1) r).1.stop = true then r.stop else r) = w.asked k r := rfl
  simp only [go, hrunning, hverdict, Bool.not_true, Bool.false_eq_true, if_false]
  rw [hasked]
  generalize (w.asked k r).execute = after
  obtain ⟨r', outcome⟩ := after
  cases outcome <;> rfl

namespace Watch.AtTop

/-- What ends a run here, by what the loop looks at in this turn. -/
theorem ending?_eq (h : w.AtTop m k r) :
    w.ending? m k =
      if r.running = false then some ⟨k, k, .ok .stopped⟩
      else if (w (k + 1) r.snapshot).goOn = false then some ⟨k, k + 1, .ok .tripwire⟩
      else
        match (w.asked k r).execute.2 with
        | .halted => some ⟨k + 1, k + 1, .ok .halt⟩
        | .faulted f => some ⟨k + 1, k + 1, .error f⟩
        | .ran => none := by
  have hasked : Follows m k (w.asked k r) := h.follows.asked
  unfold ending?
  rw [if_neg h.passed, ← h.follows.snapshot, status_after_succ hasked.snapshot, h.running]
  cases hstopped : w.stopped m k with
  | true => rfl
  | false =>
      cases hgoOn : (w (k + 1) r.snapshot).goOn with
      | false => rfl
      | true =>
          cases houtcome : (w.asked k r).execute.2 with
          | _ => rfl

/-- If something ends the run here, the loop ends with it in this turn. -/
theorem go_of_ending (h : w.AtTop m k r) (he : w.ending? m k = some e) :
    ∃ r', Follows m e.steps r' ∧
      ∀ fuel, go w.tripwire (fuel + 1) (k + 1) r = some (r', e.calls + 1, e.reason) := by
  have hasked : Follows m k (w.asked k r) := h.follows.asked
  rw [h.ending?_eq] at he
  split at he
  · rename_i hrunning
    obtain rfl := Option.some.inj he
    exact ⟨r, h.follows, go_stopped hrunning⟩
  · rename_i hrunning
    rw [Bool.not_eq_false] at hrunning
    split at he
    · rename_i hgoOn
      obtain rfl := Option.some.inj he
      exact ⟨_, hasked, go_tripwire hrunning hgoOn⟩
    · rename_i hgoOn
      rw [Bool.not_eq_false] at hgoOn
      have hgo := go_execute hrunning hgoOn
      split at he
      · rename_i houtcome
        obtain rfl := Option.some.inj he
        rw [houtcome] at hgo
        exact ⟨_, hasked.execute, hgo⟩
      · rename_i houtcome
        obtain rfl := Option.some.inj he
        rw [houtcome] at hgo
        exact ⟨_, hasked.execute, hgo⟩
      · exact absurd he (by simp)

/-- If nothing ends the run here, the loop takes a step and goes on, unless that step comes to a
    breakpoint. -/
theorem go_of_no_ending (h : w.AtTop m k r) (he : w.ending? m k = none) :
    ∃ r', Follows m (k + 1) r' ∧ r'.running = (!w.stopped m (k + 1)) ∧
      ∀ fuel, go w.tripwire (fuel + 1) (k + 1) r =
        if (m.after (k + 1)).atBreakpoint then some (r', k + 2, .ok .breakpoint)
        else go w.tripwire fuel (k + 2) r' := by
  have hasked : Follows m (k + 1) (w.asked k r).execute.1 := h.follows.asked.execute
  have hrunning : (w.asked k r).execute.1.running = (!w.stopped m (k + 1)) := by
    rw [(frame_execute _).running, running_asked, h.running, stopped_succ, Bool.not_or,
      h.follows.snapshot]
  have hbreak : (w.asked k r).execute.1.atBreakpoint = (m.after (k + 1)).atBreakpoint :=
    atBreakpoint_congr (hasked.setup.trans (sameSetup_after m (k + 1)).symm) hasked.snapshot
  refine ⟨_, hasked, hrunning, ?_⟩
  intro fuel
  rw [h.ending?_eq] at he
  split at he
  · exact absurd he (by simp)
  · rename_i hrun
    split at he
    · exact absurd he (by simp)
    · rename_i hgoOn
      rw [go_execute (by simpa using hrun) (by simpa using hgoOn), hbreak]
      split at he
      · exact absurd he (by simp)
      · exact absurd he (by simp)
      · rfl

end Watch.AtTop

/-! ## Whole loops -/

theorem ending?_of_atBreakpoint (h : (m.after (k + 1)).atBreakpoint = true) :
    w.ending? m (k + 1) = some ⟨k + 1, k + 1, .ok .breakpoint⟩ := by
  exact if_pos ⟨Nat.succ_pos k, h⟩

/-- The loop ends where the steps first come to an end. -/
theorem Watch.AtTop.go_of_ends {n : Nat} (h : w.AtTop m k r) (hends : w.Ends m n e)
    (hle : k ≤ n) :
    ∃ r', Follows m e.steps r' ∧
      ∀ fuel, n - k < fuel → go w.tripwire fuel (k + 1) r = some (r', e.calls + 1, e.reason) := by
  obtain ⟨hbefore, hend⟩ := hends
  -- by induction on the steps that are left
  generalize hd : n - k = d
  induction d generalizing k r with
  | zero =>
      obtain rfl : k = n := by omega
      obtain ⟨r', hfollows, hgo⟩ := h.go_of_ending hend
      refine ⟨r', hfollows, ?_⟩
      intro fuel hfuel
      cases fuel with
      | zero => exact absurd hfuel (Nat.not_lt_zero _)
      | succ fuel => exact hgo fuel
  | succ d ih =>
      obtain ⟨r', hfollows, hrunning, hgo⟩ := h.go_of_no_ending (hbefore k (by omega))
      by_cases hbreak : (m.after (k + 1)).atBreakpoint = true
      · -- a breakpoint after this step is the first ending
        have hhere : w.ending? m (k + 1) = some ⟨k + 1, k + 1, .ok .breakpoint⟩ :=
          ending?_of_atBreakpoint hbreak
        obtain rfl : k + 1 = n := by
          refine Classical.byContradiction ?_
          intro hne
          rw [hbefore (k + 1) (by omega)] at hhere
          exact absurd hhere (by simp)
        obtain rfl := Option.some.inj (hend.symm.trans hhere)
        refine ⟨r', hfollows, ?_⟩
        intro fuel hfuel
        cases fuel with
        | zero => exact absurd hfuel (Nat.not_lt_zero _)
        | succ fuel => rw [hgo fuel, if_pos hbreak]
      · have htop : w.AtTop m (k + 1) r' := ⟨hfollows, hrunning, fun hpassed => hbreak hpassed.2⟩
        obtain ⟨r'', hfollows', hgo'⟩ := ih htop (by omega) (by omega)
        refine ⟨r'', hfollows', ?_⟩
        intro fuel hfuel
        cases fuel with
        | zero => exact absurd hfuel (Nat.not_lt_zero _)
        | succ fuel =>
            rw [hgo fuel, if_neg hbreak]
            exact hgo' fuel (by omega)

/-- The loop never ends if the steps never come to an end. -/
theorem Watch.AtTop.go_eq_none (h : w.AtTop m k r) (hnone : ∀ i, w.ending? m i = none)
    (fuel : Nat) : go w.tripwire fuel (k + 1) r = none := by
  induction fuel generalizing k r with
  | zero => rfl
  | succ fuel ih =>
      obtain ⟨r', hfollows, hrunning, hgo⟩ := h.go_of_no_ending (hnone k)
      have hbreak : ¬ (m.after (k + 1)).atBreakpoint = true := by
        intro hbreak
        have hhere : w.ending? m (k + 1) = some ⟨k + 1, k + 1, .ok .breakpoint⟩ :=
          ending?_of_atBreakpoint hbreak
        rw [hnone] at hhere
        exact absurd hhere (by simp)
      rw [hgo fuel, if_neg hbreak]
      exact ih ⟨hfollows, hrunning, fun hpassed => hbreak hpassed.2⟩

theorem atTop_prepare (w : Watch) (m : Machine) : w.AtTop m 0 m.prepare :=
  ⟨follows_prepare m, rfl, fun h => absurd h.1 (Nat.lt_irrefl 0)⟩

end Loop

/-- An outcome does not depend on how many steps were allowed. -/
theorem go_mono {σ : Type} {trip : Tripwire σ} {fuel fuel' : Nat} {s : σ} {m : Machine}
    {x : Machine × σ × Except Fault Pause} (h : go trip fuel s m = some x) (hle : fuel ≤ fuel') :
    go trip fuel' s m = some x := by
  induction fuel generalizing fuel' s m with
  | zero => exact absurd h (by simp [go])
  | succ fuel ih =>
      obtain ⟨fuel', rfl⟩ : ∃ n, fuel' = n + 1 := ⟨fuel' - 1, by omega⟩
      simp only [go] at h ⊢
      split at h
      · rename_i hrunning
        rw [if_pos hrunning]
        exact h
      · rename_i hrunning
        rw [if_neg hrunning]
        split at h
        · rename_i hgoOn
          rw [if_pos hgoOn]
          exact h
        · rename_i hgoOn
          rw [if_neg hgoOn]
          split at h
          · exact h
          · exact h
          · split at h
            · rename_i hbreak
              rw [if_pos hbreak]
              exact h
            · rename_i hbreak
              rw [if_neg hbreak]
              exact ih h (by omega)

/-! ## Ended runs -/

/-- The answer of a run that ended so. -/
def Ending.result (e : Ending) : Except Fault Unit :=
  e.reason.map fun _ => ()

/-- A machine after a run that ended so: it has come as far as the steps, and the subscribers were
    told once what all of them recorded. A fault leaves no pause. -/
structure Ended (m : Machine) (e : Ending) (m' : Machine) : Prop where
  snapshot : m'.snapshot = (m.after e.steps).snapshot
  pause : m'.pause = e.reason.toOption
  running : m'.running = false
  cells : ∀ a, m'.journal.hasChanged a =
    (List.range e.steps).any fun i => (m.after (i + 1)).journal.hasChanged a
  registers : m'.journal.registers =
    (List.range e.steps).any fun i => (m.after (i + 1)).journal.registers
  inboxes : m'.journal.inboxes =
    m.journal.inboxes.map (·.map (· ++ m'.journal.recorded m'.core.acu m'.core.pc))
  setup : m'.SameSetup m

theorem Follows.finish {e : Ending} (h : Follows m e.steps r) :
    Ended m e (r.finish e.reason).1 ∧ (r.finish e.reason).2 = e.result := by
  have hcells : ∀ a, (r.journal.publish r.core.acu r.core.pc).hasChanged a =
      (List.range e.steps).any fun i => (m.after (i + 1)).journal.hasChanged a := by
    intro a
    rw [Journal.hasChanged_publish, h.cells]
  have hregisters : (r.journal.publish r.core.acu r.core.pc).registers =
      (List.range e.steps).any fun i => (m.after (i + 1)).journal.registers := by
    rw [Journal.registers_publish, h.registers]
  -- to tell what is recorded changes nothing of it
  have hrecorded : (r.journal.publish r.core.acu r.core.pc).recorded r.core.acu r.core.pc =
      r.journal.recorded r.core.acu r.core.pc := by
    rw [Journal.recorded, Journal.recorded, Journal.registers_publish, Journal.changes,
      Journal.publish, Journal.changed_notifyAll]
    rfl
  have hinboxes : (r.journal.publish r.core.acu r.core.pc).inboxes = m.journal.inboxes.map
      (·.map (· ++ (r.journal.publish r.core.acu r.core.pc).recorded r.core.acu r.core.pc)) := by
    rw [hrecorded, ← h.inboxes]
    exact Journal.inboxes_notifyAll _ _
  obtain ⟨hstart, hsymbols, hflags, hbreakpoints, hswitch⟩ := h.setup
  obtain ⟨steps, calls, reason⟩ := e
  cases reason with
  | ok pause =>
      exact ⟨⟨h.snapshot, rfl, rfl, hcells, hregisters, hinboxes,
        ⟨hstart, hsymbols, hflags, hbreakpoints, hswitch⟩⟩, rfl⟩
  | error f =>
      exact ⟨⟨h.snapshot, h.pause, rfl, hcells, hregisters, hinboxes,
        ⟨hstart, hsymbols, hflags, hbreakpoints, hswitch⟩⟩, rfl⟩

theorem runUnder_of_ends {w : Watch} {e : Ending} (hends : w.Ends m k e) :
    ∃ m', Ended m e m' ∧
      ∀ fuel, k < fuel → runUnder w.tripwire fuel 1 m = some (m', e.calls + 1, e.result) := by
  obtain ⟨r, hfollows, hgo⟩ := (atTop_prepare w m).go_of_ends hends (Nat.zero_le k)
  obtain ⟨hended, hresult⟩ := hfollows.finish
  refine ⟨_, hended, ?_⟩
  intro fuel hfuel
  rw [runUnder, hgo fuel hfuel, Option.map_some, ← hresult]

theorem runUnder_eq_none {w : Watch} (hnone : ∀ i, w.ending? m i = none) (fuel : Nat) :
    runUnder w.tripwire fuel 1 m = none := by
  rw [runUnder, (atTop_prepare w m).go_eq_none hnone fuel, Option.map_none]

theorem runUnder_mono {σ : Type} {trip : Tripwire σ} {fuel fuel' : Nat} {s : σ}
    {x : Machine × σ × Except Fault Unit} (h : runUnder trip fuel s m = some x)
    (hle : fuel ≤ fuel') : runUnder trip fuel' s m = some x := by
  rw [runUnder, Option.map_eq_some_iff] at h ⊢
  obtain ⟨y, hy, hx⟩ := h
  exact ⟨y, go_mono hy hle, hx⟩

/-! ## Tripwires without a state -/

/-- Two tripwires that say the same make the same run, whatever states they carry. -/
theorem go_map {σ τ : Type} (trip : Tripwire σ) (trip' : Tripwire τ) (f : σ → τ)
    (h : ∀ s m, trip' (f s) m = ((trip s m).1, f (trip s m).2)) (fuel : Nat) (s : σ)
    (m : Machine) :
    go trip' fuel (f s) m = (go trip fuel s m).map fun (m, s, x) => (m, f s, x) := by
  induction fuel generalizing s m with
  | zero => rfl
  | succ fuel ih =>
      simp only [go, h]
      split
      · rfl
      · split
        · rfl
        · split
          · rfl
          · rfl
          · split
            · rfl
            · exact ih _ _

/-- A tripwire without a state is a watch that does not mind the number of the call. -/
theorem runUnder_unit (verdict : Snapshot → Verdict) (fuel : Nat) (m : Machine) :
    (runUnder (fun (_ : Unit) m => (verdict m.snapshot, ())) fuel () m).map
        (fun (m, _, x) => (m, x)) =
      (runUnder (Watch.tripwire fun _ v => verdict v) fuel 1 m).map fun (m, _, x) => (m, x) := by
  have hgo := go_map (Watch.tripwire fun _ v => verdict v)
    (fun (_ : Unit) m => (verdict m.snapshot, ())) (fun _ => ()) (fun _ _ => rfl) fuel 1 m.prepare
  unfold runUnder
  rw [hgo, Option.map_map, Option.map_map, Option.map_map]
  rfl

/-! ## Limits -/

namespace Watch

/-- The watch that never ends a run. -/
def always : Watch := fun _ _ => ⟨true, false⟩

/-- The watch that lets a run take so many steps. -/
def upTo (n : UInt64) : Watch := fun call _ => ⟨call ≤ n.toNat, false⟩

/-- The watch that compares what a machine has counted with a first count. -/
def counting (first n : UInt64) : Watch := fun _ v => ⟨v.executed - first < n, false⟩

variable {w : Watch}

/-- A step after which a run goes on counts one instruction. -/
theorem executed_after_succ (h : w.ending? m k = none) :
    (m.after (k + 1)).executed = (m.after k).executed + 1 := by
  have hexecute : (m.after k).execute.1.snapshot = (m.after (k + 1)).snapshot :=
    snapshot_execute rfl
  have hstatus : (m.after (k + 1)).status = (m.after k).execute.2.status :=
    status_after_succ rfl
  have hran : (m.after k).execute.2 = .ran := by
    unfold ending? at h
    split at h
    · exact absurd h (by simp)
    · split at h
      · exact absurd h (by simp)
      · split at h
        · exact absurd h (by simp)
        · rw [hstatus] at h
          cases houtcome : (m.after k).execute.2 with
          | ran => rfl
          | halted => simp [houtcome, Outcome.status] at h
          | faulted f => simp [houtcome, Outcome.status] at h
  rw [← executed_execute hran]
  exact (congrArg Snapshot.executed hexecute).symm

theorem executed_after (h : ∀ i < k, w.ending? m i = none) :
    (m.after k).executed = m.executed + UInt64.ofNat k := by
  induction k with
  | zero => exact (UInt64.add_zero _).symm
  | succ k ih =>
      rw [executed_after_succ (h k (Nat.lt_succ_self k)), ih fun i hi => h i (Nat.lt_succ_of_lt hi),
        UInt64.add_assoc, UInt64.ofNat_add]
      rfl

/-- Up to the limit, to count calls is to count instructions, even where the count wraps. -/
theorem counting_eq_upTo {n : UInt64} (hk : k ≤ n.toNat)
    (h : ∀ i < k, (upTo n).ending? m i = none) :
    (counting m.executed n).ending? m k = (upTo n).ending? m k := by
  have hcount : (m.after k).executed - m.executed < n ↔ k + 1 ≤ n.toNat := by
    have hlt : k < UInt64.size := Nat.lt_of_le_of_lt hk n.toNat_lt_size
    have hnat : (UInt64.ofNat k).toNat = k := UInt64.toNat_ofNat_of_lt' hlt
    rw [executed_after h, UInt64.add_comm, UInt64.add_sub_cancel, UInt64.lt_iff_toNat_lt, hnat]
    rfl
  have hgoOn : (counting m.executed n (k + 1) (m.after k).snapshot).goOn =
      (upTo n (k + 1) (m.after k).snapshot).goOn := by
    exact decide_eq_decide.2 hcount
  have hstopped : (counting m.executed n).stopped m k = (upTo n).stopped m k := rfl
  simp only [ending?, hgoOn, hstopped]

/-- Where something ends a run, something ends it first. -/
theorem exists_ends_of_ne_none (h : w.ending? m k ≠ none) : ∃ j ≤ k, ∃ e, w.Ends m j e := by
  induction k using Nat.strongRecOn with
  | ind k ih =>
      by_cases hbefore : ∀ i < k, w.ending? m i = none
      · obtain ⟨e, he⟩ := Option.ne_none_iff_exists'.1 h
        exact ⟨k, Nat.le_refl k, e, hbefore, he⟩
      · obtain ⟨i, hi⟩ := Classical.not_forall.1 hbefore
        obtain ⟨hlt, hne⟩ := Classical.not_imp.1 hi
        obtain ⟨j, hj, hends⟩ := ih i hlt hne
        exact ⟨j, Nat.le_trans hj (Nat.le_of_lt hlt), hends⟩

/-- A run that may take so many steps ends within them. -/
theorem exists_ends_upTo (n : UInt64) (m : Machine) : ∃ k ≤ n.toNat, ∃ e, (upTo n).Ends m k e := by
  refine exists_ends_of_ne_none (k := n.toNat) ?_
  have hgoOn : (upTo n (n.toNat + 1) (m.after n.toNat).snapshot).goOn = false :=
    decide_eq_false (Nat.not_succ_le_self _)
  unfold ending?
  split
  · exact Option.some_ne_none _
  · split
    · exact Option.some_ne_none _
    · simp [hgoOn]

end Watch

/-! ## All runs -/

/-- Every run is single steps up to their first ending: it ends with the machine after those steps
    if there is one, however many steps are allowed beyond them, and never ends if there is none.
    A run without a tripwire is a run under a watch that says nothing, and a run with a limit is
    one that is allowed so many steps, whatever the count of instructions was before it. -/
theorem runUnder_eq_steps (m : Machine) :
    (∀ (w : Watch) (k : Nat) (e : Ending), w.Ends m k e → ∃ m', Ended m e m' ∧
      (∀ fuel, k < fuel → runUnder w.tripwire fuel 1 m = some (m', e.calls + 1, e.result)) ∧
      ∀ fuel x, runUnder w.tripwire fuel 1 m = some x → x = (m', e.calls + 1, e.result)) ∧
    (∀ w : Watch, (∀ k, w.ending? m k = none) → ∀ fuel, runUnder w.tripwire fuel 1 m = none) ∧
    (∀ fuel, run fuel m =
      (runUnder Watch.always.tripwire fuel 1 m).map fun (m', _, x) => (m', x)) ∧
    ∀ n, ∃ k ≤ n.toNat, ∃ e m', (Watch.upTo n).Ends m k e ∧ Ended m e m' ∧
      runAtMost n m = some (m', e.result) := by
  refine ⟨?_, fun w => runUnder_eq_none, ?_, ?_⟩
  · intro w k e hends
    obtain ⟨m', hended, hrun⟩ := runUnder_of_ends hends
    refine ⟨m', hended, hrun, ?_⟩
    intro fuel x hx
    -- an answer stays the same if more steps are allowed, so it is the one for more than `k`
    have hmore := runUnder_mono hx (Nat.le_add_right fuel (k + 1))
    rw [hrun (fuel + (k + 1)) (by omega), Option.some.injEq] at hmore
    exact hmore.symm
  · intro fuel
    exact runUnder_unit (fun _ => ⟨true, false⟩) fuel m
  · intro n
    obtain ⟨k, hk, e, hends⟩ := Watch.exists_ends_upTo n m
    obtain ⟨hbefore, hend⟩ := hends
    have hcounting : (Watch.counting m.executed n).Ends m k e := by
      constructor
      · intro i hi
        rw [Watch.counting_eq_upTo (by omega) fun j hj => hbefore j (by omega)]
        exact hbefore i hi
      · rw [Watch.counting_eq_upTo hk hbefore]
        exact hend
    obtain ⟨m', hended, hrun⟩ := runUnder_of_ends hcounting
    refine ⟨k, hk, e, m', ⟨hbefore, hend⟩, hended, ?_⟩
    have hunit := runUnder_unit (fun v => ⟨v.executed - m.executed < n, false⟩) (n.toNat + 1) m
    rw [show (fun (_ : Nat) (v : Snapshot) => (⟨v.executed - m.executed < n, false⟩ : Verdict)) =
      Watch.counting m.executed n from rfl, hrun (n.toNat + 1) (by omega)] at hunit
    exact hunit

/-- A stop is asked for in the first call, but the step after it comes to a breakpoint. -/
theorem runUnder_eq_steps_breakpoint :
    ∃ m m', m.breakpoints = [.pc 1] ∧ m'.pause = some .breakpoint ∧ m'.snapshot.core.acu = 5 ∧
      runUnder (Watch.tripwire fun call _ => ⟨true, call == 1⟩) 9 1 m = some (m', 2, .ok ()) := by
  let m : Machine :=
    { core := ⟨⟨#[9115, 0]⟩, 0, 0⟩, flags := {}, breakpoints := [.pc 1] }
  have hends : Watch.Ends (fun call _ => ⟨true, call == 1⟩) m 1 ⟨1, 1, .ok .breakpoint⟩ := by
    refine ⟨?_, ending?_of_atBreakpoint (by decide +kernel)⟩
    intro i hi
    obtain rfl : i = 0 := by omega
    exact Option.isNone_iff_eq_none.1 (by decide +kernel)
  obtain ⟨m', hended, hrun, -⟩ := (runUnder_eq_steps m).1 _ 1 _ hends
  refine ⟨m, m', rfl, hended.pause, ?_, hrun 9 (by omega)⟩
  rw [hended.snapshot]
  decide +kernel

end DecimalMachine.Machine
