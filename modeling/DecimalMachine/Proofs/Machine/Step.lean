import DecimalMachine.Machine.Run
import Std.Data.TreeSet.Lemmas

set_option autoImplicit false

/-! # Single steps

All that an instruction can do to a machine is said once (`Machine.Executes`), and what holds after
one is derived from that by cases. What it does depends on the core, the status and the count of
the machine (`Machine.snapshot`) and on nothing else. So two machines with the same snapshot execute
in the same way, whatever their journals hold already: what the instruction changes is added to it
(`Machine.Executes.congr`). A single step is an instruction on an empty journal, followed by the
news of it. -/

namespace DecimalMachine

/-! ## Journals -/

namespace Journal

/-- A journal that has recorded what two others have. -/
structure Joins (j before step : Journal) : Prop where
  cells : ∀ a, j.hasChanged a = (before.hasChanged a || step.hasChanged a)
  registers : j.registers = (before.registers || step.registers)

theorem hasChanged_recordCell (j : Journal) (b a : Nat) :
    (j.recordCell b).hasChanged a = (compare b a == .eq || j.hasChanged a) := by
  exact Std.TreeSet.contains_insert

theorem hasChanged_clear (j : Journal) (a : Nat) : j.clear.hasChanged a = false := by
  exact Std.TreeSet.contains_emptyc

theorem joins_clear (j other : Journal) : j.Joins j other.clear := by
  constructor
  · intro a
    rw [hasChanged_clear, Bool.or_false]
  · exact (Bool.or_false _).symm

/-- What an instruction that was carried out adds to a journal: the registers, and the cell that it
    has changed, if it has. -/
def record (j : Journal) : Option Nat → Journal
  | some a => (j.recordCell a).recordRegisters
  | none => j.recordRegisters

theorem registers_record (j : Journal) (changed : Option Nat) :
    (j.record changed).registers = true := by
  cases changed <;> rfl

theorem inboxes_record (j : Journal) (changed : Option Nat) :
    (j.record changed).inboxes = j.inboxes := by
  cases changed <;> rfl

theorem hasChanged_record (j : Journal) (changed : Option Nat) (a : Nat) :
    (j.record changed).hasChanged a = (decide (changed = some a) || j.hasChanged a) := by
  cases changed with
  | none => exact (Bool.false_or _).symm
  | some b =>
      refine (hasChanged_recordCell j b a).trans ?_
      simp [Bool.beq_eq_decide_eq]

theorem Joins.record {j before step : Journal} (h : j.Joins before step) (changed : Option Nat) :
    (j.record changed).Joins before (step.record changed) := by
  constructor
  · intro a
    rw [hasChanged_record, hasChanged_record, h.cells, Bool.or_left_comm]
  · rw [registers_record, registers_record, Bool.or_true]

theorem inboxes_notifyAll (j : Journal) (es : List Event) :
    (j.notifyAll es).inboxes = j.inboxes.map (·.map (· ++ es)) := by
  induction es generalizing j with
  | nil => simp [notifyAll]
  | cons e es ih =>
      have hrest := ih (j.notify e)
      simp only [notify, List.map_map] at hrest
      refine hrest.trans (List.map_congr_left ?_)
      intro inbox _
      cases inbox <;> simp

theorem hasChanged_publish (j : Journal) (acu : Cell) (pc a : Nat) :
    (j.publish acu pc).hasChanged a = j.hasChanged a := by
  rw [hasChanged, publish, changed_notifyAll]
  rfl

theorem registers_publish (j : Journal) (acu : Cell) (pc : Nat) :
    (j.publish acu pc).registers = j.registers := by
  exact registers_notifyAll _ _

end Journal

/-! ## Snapshots -/

/-- The part of a machine that execution works on. -/
structure Snapshot where
  core : Core
  status : Status
  executed : UInt64
  deriving DecidableEq

namespace Machine

theorem tell_append (m : Machine) (es fs : List Event) :
    (m.tell es).tell fs = m.tell (es ++ fs) := by
  simp only [tell, Journal.notifyAll, List.foldl_append]

/-- What execution has come to. -/
def snapshot (m : Machine) : Snapshot :=
  ⟨m.core, m.status, m.executed⟩

/-- The settings of two machines, the programs they were loaded with and their handles are the
    same. -/
structure SameSetup (m m' : Machine) : Prop where
  start : m.start = m'.start
  symbols : m.symbols = m'.symbols
  flags : m.flags = m'.flags
  breakpoints : m.breakpoints = m'.breakpoints
  switch : m.switch = m'.switch

theorem SameSetup.trans {m m' m'' : Machine} (h : m.SameSetup m') (h' : m'.SameSetup m'') :
    m.SameSetup m'' :=
  ⟨h.start.trans h'.start, h.symbols.trans h'.symbols, h.flags.trans h'.flags,
    h.breakpoints.trans h'.breakpoints, h.switch.trans h'.switch⟩

theorem SameSetup.symm {m m' : Machine} (h : m.SameSetup m') : m'.SameSetup m :=
  ⟨h.start.symm, h.symbols.symm, h.flags.symm, h.breakpoints.symm, h.switch.symm⟩

theorem atBreakpoint_congr {m m' : Machine} (hsetup : m.SameSetup m')
    (hsnapshot : m.snapshot = m'.snapshot) : m.atBreakpoint = m'.atBreakpoint := by
  have hcore : m.core = m'.core := congrArg Snapshot.core hsnapshot
  rw [atBreakpoint, hsetup.breakpoints, hcore]
  rfl

/-! ## Instructions -/

/-- A machine that can go on, as far as its status says. -/
def IsActive (m : Machine) : Prop :=
  m.status = .ready ∨ m.status = .running

/-- The machine after an instruction that is to have some effect. -/
def perform (m : Machine) (e : Effect) : Machine :=
  { m with
    core := (m.core.apply e).1
    status := .running
    executed := m.executed + 1
    journal := m.journal.record (m.core.apply e).2 }

section Execute

variable {m : Machine} {f : Fault}

/-- A machine that has halted stays as it is. -/
theorem execute_of_halted (h : m.status = .halted) : m.execute = (m, .halted) := by
  unfold execute
  rw [h]

/-- A machine that has faulted stays as it is and reports its fault again. -/
theorem execute_of_faulted (h : m.status = .faulted f) : m.execute = (m, .faulted f) := by
  unfold execute
  rw [h]

theorem execute_of_effect_error (hactive : m.IsActive) (h : m.core.effect = .error f) :
    m.execute = ({ m with status := .faulted f }, .faulted f) := by
  unfold execute
  rcases hactive with hs | hs <;> simp [hs, h]

theorem execute_of_effect_none (hactive : m.IsActive) (h : m.core.effect = .ok none) :
    m.execute = ({ m with status := .halted, executed := m.executed + 1 }, .halted) := by
  unfold execute
  rcases hactive with hs | hs <;> simp [hs, h]

theorem execute_of_effect_some (hactive : m.IsActive) {e : Effect}
    (h : m.core.effect = .ok (some e)) :
    m.execute = (m.perform e, .ran) := by
  unfold execute perform
  rcases hactive with hs | hs
  · simp only [hs, h]
    cases (m.core.apply e).2 <;> rfl
  · simp only [hs, h]
    cases (m.core.apply e).2 <;> rfl

end Execute

/-- All that an instruction can do to a machine, with its outcome. -/
inductive Executes (m : Machine) : Machine → Outcome → Prop
  | halted (h : m.status = .halted) : Executes m m .halted
  | faulted {f : Fault} (h : m.status = .faulted f) : Executes m m (.faulted f)
  | fault {f : Fault} (hactive : m.IsActive) (h : m.core.effect = .error f) :
      Executes m { m with status := .faulted f } (.faulted f)
  | halt (hactive : m.IsActive) (h : m.core.effect = .ok none) :
      Executes m { m with status := .halted, executed := m.executed + 1 } .halted
  | run {e : Effect} (hactive : m.IsActive) (h : m.core.effect = .ok (some e)) :
      Executes m (m.perform e) .ran

theorem executes_execute (m : Machine) : m.Executes m.execute.1 m.execute.2 := by
  have hactive : m.IsActive → m.Executes m.execute.1 m.execute.2 := by
    intro hactive
    cases he : m.core.effect with
    | error f =>
        rw [execute_of_effect_error hactive he]
        exact .fault hactive he
    | ok effect =>
        cases effect with
        | none =>
            rw [execute_of_effect_none hactive he]
            exact .halt hactive he
        | some e =>
            rw [execute_of_effect_some hactive he]
            exact .run hactive he
  cases hs : m.status with
  | ready => exact hactive (.inl hs)
  | running => exact hactive (.inr hs)
  | halted =>
      rw [execute_of_halted hs]
      exact .halted hs
  | faulted f =>
      rw [execute_of_faulted hs]
      exact .faulted hs

theorem Executes.execute_eq {m r : Machine} {x : Outcome} (h : m.Executes r x) :
    m.execute = (r, x) := by
  cases h with
  | halted hs => exact execute_of_halted hs
  | faulted hs => exact execute_of_faulted hs
  | fault hactive he => exact execute_of_effect_error hactive he
  | halt hactive he => exact execute_of_effect_none hactive he
  | run hactive he => exact execute_of_effect_some hactive he

/-- What an instruction leaves alone. -/
structure Frame (m m' : Machine) : Prop where
  setup : m'.SameSetup m
  pause : m'.pause = m.pause
  running : m'.running = m.running
  inboxes : m'.journal.inboxes = m.journal.inboxes

theorem Executes.frame {m r : Machine} {x : Outcome} (h : m.Executes r x) : m.Frame r := by
  cases h with
  | run => exact ⟨⟨rfl, rfl, rfl, rfl, rfl⟩, rfl, rfl, Journal.inboxes_record _ _⟩
  | _ => exact ⟨⟨rfl, rfl, rfl, rfl, rfl⟩, rfl, rfl, rfl⟩

theorem frame_execute (m : Machine) : m.Frame m.execute.1 :=
  m.executes_execute.frame

/-- The status of a machine after an instruction with some outcome. -/
def Outcome.status : Outcome → Status
  | .ran => .running
  | .halted => .halted
  | .faulted f => .faulted f

theorem Executes.status {m r : Machine} {x : Outcome} (h : m.Executes r x) :
    r.status = x.status := by
  cases h with
  | halted h => exact h
  | faulted h => exact h
  | _ => rfl

theorem status_execute (m : Machine) : m.execute.1.status = m.execute.2.status :=
  m.executes_execute.status

theorem executed_execute {m : Machine} (h : m.execute.2 = .ran) :
    m.execute.1.executed = m.executed + 1 := by
  have hexecutes := m.executes_execute
  rw [h] at hexecutes
  generalize m.execute.1 = r at hexecutes
  cases hexecutes with
  | run => rfl

/-- Machines with the same snapshot execute alike, and record the same on top of what they have
    recorded already. -/
theorem Executes.congr {r s s' : Machine} {x : Outcome} (hs : s.Executes s' x)
    (h : r.snapshot = s.snapshot) :
    ∃ r', r.Executes r' x ∧ r'.snapshot = s'.snapshot ∧
      ∀ before, r.journal.Joins before s.journal → r'.journal.Joins before s'.journal := by
  obtain ⟨hcore, hstatus, hexecuted⟩ := Snapshot.mk.inj h
  cases hs with
  | halted hstopped =>
      exact ⟨r, .halted (hstatus.trans hstopped), h, fun _ => id⟩
  | faulted hstopped =>
      exact ⟨r, .faulted (hstatus.trans hstopped), h, fun _ => id⟩
  | fault hactive he =>
      rw [IsActive, ← hstatus] at hactive
      rw [← hcore] at he
      exact ⟨_, .fault hactive he, by simp only [snapshot, hcore, hexecuted], fun _ => id⟩
  | halt hactive he =>
      rw [IsActive, ← hstatus] at hactive
      rw [← hcore] at he
      exact ⟨_, .halt hactive he, by simp only [snapshot, hcore, hexecuted], fun _ => id⟩
  | @run e hactive he =>
      rw [IsActive, ← hstatus] at hactive
      rw [← hcore] at he
      refine ⟨_, .run hactive he, by simp only [perform, snapshot, hcore, hexecuted], ?_⟩
      intro before hjoins
      rw [perform, perform, hcore]
      exact hjoins.record _

theorem execute_congr {r s : Machine} (h : r.snapshot = s.snapshot) :
    r.execute.2 = s.execute.2 ∧ r.execute.1.snapshot = s.execute.1.snapshot := by
  obtain ⟨r', hr', hsnapshot, -⟩ := s.executes_execute.congr h
  rw [hr'.execute_eq]
  exact ⟨rfl, hsnapshot⟩

/-- What an instruction records comes to what was recorded before it. -/
theorem joins_execute {r s : Machine} (h : r.snapshot = s.snapshot) :
    r.execute.1.journal.Joins r.journal
      ({ s with journal := s.journal.clear } : Machine).execute.1.journal := by
  have hclear : r.snapshot = ({ s with journal := s.journal.clear } : Machine).snapshot := h
  obtain ⟨r', hr', -, hjoins⟩ := (executes_execute _).congr hclear
  rw [hr'.execute_eq]
  exact hjoins _ (Journal.joins_clear r.journal s.journal)

/-! ## Steps -/

/-- A step is an instruction on an empty journal, and the news of what that then holds. -/
theorem step_eq (m : Machine) :
    m.step.1 = ({ m with journal := m.journal.clear } : Machine).execute.1.publish := by
  unfold step
  dsimp only
  split <;> rfl

/-- The machine after so many steps. -/
def after (m : Machine) : Nat → Machine
  | 0 => m
  | n + 1 => (m.after n).step.1

theorem sameSetup_after (m : Machine) (n : Nat) : (m.after n).SameSetup m := by
  induction n with
  | zero => exact ⟨rfl, rfl, rfl, rfl, rfl⟩
  | succ n ih =>
      obtain ⟨hstart, hsymbols, hflags, hbreakpoints, hswitch⟩ :=
        (frame_execute { m.after n with journal := (m.after n).journal.clear }).setup
      rw [after, step_eq]
      exact ⟨hstart.trans ih.start, hsymbols.trans ih.symbols, hflags.trans ih.flags,
        hbreakpoints.trans ih.breakpoints, hswitch.trans ih.switch⟩

/-- A machine that has come as far as another one does what a step of that one does. -/
theorem snapshot_execute {m r : Machine} {n : Nat} (h : r.snapshot = (m.after n).snapshot) :
    r.execute.1.snapshot = (m.after (n + 1)).snapshot := by
  have hclear : r.snapshot =
      ({ m.after n with journal := (m.after n).journal.clear } : Machine).snapshot := h
  rw [after, step_eq]
  exact (execute_congr hclear).2

theorem status_after_succ {m r : Machine} {n : Nat} (h : r.snapshot = (m.after n).snapshot) :
    (m.after (n + 1)).status = r.execute.2.status := by
  rw [← status_execute]
  exact (congrArg Snapshot.status (snapshot_execute h)).symm

theorem joins_after {m r : Machine} {n : Nat} (h : r.snapshot = (m.after n).snapshot) :
    r.execute.1.journal.Joins r.journal (m.after (n + 1)).journal := by
  have hjoins := joins_execute h
  rw [after, step_eq]
  constructor
  · intro a
    rw [hjoins.cells a]
    exact congrArg _ (Journal.hasChanged_publish _ _ _ a).symm
  · rw [hjoins.registers]
    exact congrArg _ (Journal.registers_publish _ _ _).symm

end Machine

end DecimalMachine
