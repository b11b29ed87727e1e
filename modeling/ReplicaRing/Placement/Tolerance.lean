import ReplicaRing.Error

/-!
# Tolerances

Members can only own whole coordinates, so what they get differs a little from their weighted share.
A build first asks for a fine tolerance and makes it coarser by a constant factor until the
placement succeeds or a ceiling is passed. The tolerances are collected before the first attempt
(`BuildConfig.schedule`).
-/

namespace ReplicaRing

/-- How rings are built. -/
structure BuildConfig where
  initialTolerance : Float
  /-- The factor by which the tolerance grows from one attempt to the next. -/
  growth : Float
  /-- The largest tolerance to try, as a multiple of the first one. -/
  ceilingMultiple : Float
  /-- Whether the subtrees below the root ring are built side by side. -/
  parallel : Bool

namespace BuildConfig

/-- The configuration used when nothing else is asked for. -/
def standard : BuildConfig where
  initialTolerance := 1e-6
  growth := 10.0
  ceilingMultiple := 10000.0
  parallel := false

def ceiling (c : BuildConfig) : Float :=
  c.initialTolerance * c.ceilingMultiple

/-- What no tolerance that is tried may pass: the ceiling, with a small allowance for the rounding
of the products. -/
def limit (c : BuildConfig) : Float :=
  c.ceiling * (1.0 + 1e-9)

/-- The first reason why a configuration cannot be used. -/
def defect? (c : BuildConfig) : Option ConfigDefect :=
  if !(c.initialTolerance.isFinite && 0.0 < c.initialTolerance) then
    some (.initialTolerance c.initialTolerance)
  else if !(c.growth.isFinite && 1.0 < c.growth) then some (.toleranceGrowth c.growth)
  else if !(c.ceilingMultiple.isFinite && 1.0 ≤ c.ceilingMultiple) then
    some (.toleranceCeiling c.ceilingMultiple)
  else none

/-- Multiplies by the growth factor as long as the product does not pass the limit. The tolerances
in `before` have been collected so far, last one first.

The loop need not end, not even for a configuration without a defect: a tolerance that is rounded
back to itself does not pass its limit, and none passes an infinite one. The value of a loop that
does not end is left open; all that is known of it is `growFrom_eq_ite`. -/
def growFrom (growth limit : Float) (before : List Float) (tolerance : Float) : List Float :=
  haveI : Nonempty (List Float) := ⟨[]⟩
  Id.run <| repeatM
    (fun (before, tolerance) =>
      if tolerance ≤ limit then pure (.inl (tolerance :: before, tolerance * growth))
      else pure (.inr before.reverse))
    (before, tolerance)

/-- One round of the loop. -/
theorem growFrom_eq_ite (growth limit : Float) (before : List Float) (tolerance : Float) :
    growFrom growth limit before tolerance =
      if tolerance ≤ limit then growFrom growth limit (tolerance :: before) (tolerance * growth)
      else before.reverse := by
  unfold growFrom
  rw [repeatM_eq_of_monadTail]
  by_cases h : tolerance ≤ limit <;> simp [repeatM.body, h]

/-- The same loop with its first `n` rounds written out, so that the kernel can evaluate short
schedules. -/
def growUpTo (growth limit : Float) : Nat → List Float → Float → List Float
  | 0, before, tolerance => growFrom growth limit before tolerance
  | n + 1, before, tolerance =>
    if tolerance ≤ limit then
      growUpTo growth limit n (tolerance :: before) (tolerance * growth)
    else before.reverse

/-- How many rounds are written out makes no difference. -/
theorem growUpTo_eq_growFrom (growth limit : Float) (n : Nat) (before : List Float)
    (tolerance : Float) :
    growUpTo growth limit n before tolerance = growFrom growth limit before tolerance := by
  induction n generalizing before tolerance with
  | zero => rfl
  | succ n ih => rw [growUpTo, ih, ← growFrom_eq_ite]

/-- The tolerances to try, finest first: the initial one times the powers of the growth factor, up
to the last one that does not pass the limit. The ceiling itself need not be among them. -/
def schedule (c : BuildConfig) : List Float :=
  growUpTo c.growth c.limit 16 [] c.initialTolerance

end BuildConfig

end ReplicaRing
