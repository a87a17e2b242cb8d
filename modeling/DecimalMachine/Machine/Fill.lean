import DecimalMachine.Machine.Memory

set_option autoImplicit false

/-! # Fills

How the machine fills cells that no program has written: with one known value, or with values that
come from outside of it. Such values show up programs that count on a cell they never wrote. A seed
gives the same values every time, so that a run can be repeated; without a seed they can be any. -/

namespace DecimalMachine

/-- Values without end, in their order, and how many of them have been taken. -/
structure Supply where
  values : Nat → Cell
  taken : Nat := 0

instance : Filler Supply where
  next s := (s.values s.taken, { s with taken := s.taken + 1 })

/-- The values that each seed gives. -/
abbrev Seeding := UInt64 → Nat → Cell

/-- Values from outside: those that a seed gives, and those that come without one this time. -/
structure Randomness where
  seeded : Seeding
  unseeded : Nat → Cell

/-- Zeroes and nothing else. -/
instance : Inhabited Randomness where
  default := { seeded := fun _ _ => 0, unseeded := fun _ => 0 }

/-- How new cells are filled. -/
inductive Fill
  /-- With one value. -/
  | known (value : Cell)
  /-- With values that depend on a seed. -/
  | seeded (seed : UInt64)
  /-- With values that nothing is said about. -/
  | unseeded
  deriving DecidableEq, Repr

namespace Fill

/-- The filler of a fill, from its first value on. -/
def supply (r : Randomness) : Fill → Supply
  | known v => { values := fun _ => v }
  | seeded seed => { values := r.seeded seed }
  | unseeded => { values := r.unseeded }

/-- What comes without a seed matters to no other fill. -/
theorem supply_congr {fill : Fill} (h : fill ≠ .unseeded) {r r' : Randomness}
    (hseeded : r.seeded = r'.seeded) : fill.supply r = fill.supply r' := by
  cases fill with
  | known v => rfl
  | seeded seed => rw [supply, supply, hseeded]
  | unseeded => exact absurd rfl h

/-- Whether the values are known beforehand. -/
def isKnown : Fill → Bool
  | known _ => true
  | _ => false

end Fill

end DecimalMachine
