import ReplicaRing.Error
import ReplicaRing.Sorting
import ReplicaRing.Sum

/-!
# Quotas

The replica units of a region are divided among the members in proportion to their weights, but no
member gets more units than it has coordinates to put them on. A member whose share is larger than
that is pinned at the capacity, and the others divide the rest. Shares are rounded down, and the
units lost that way go to the largest fractional parts first.

Shares are doubles and may be off by many units. Counting is exact all the same: whatever the shares
were, the quotas that come out sum to the total and stay within the capacity.
-/

namespace ReplicaRing.Quota

/-- A member's weight, and whether its quota is settled at the capacity. -/
structure Claimant where
  weight : Float
  pinned : Bool
deriving DecidableEq

/-- What the members that are not pinned divide among themselves: their units, and the sum of their
weights. -/
structure Pool where
  units : Float
  weight : Float

def poolOf (total capacity : Nat) (claimants : List Claimant) : Pool where
  -- The units are rounded once, after an exact subtraction; the weights are added from left to
  -- right, since the order of the additions shows in the sum.
  units := Binary64.ofNat (total - claimants.countP Claimant.pinned * capacity)
  weight := ((claimants.filter fun c => !c.pinned).map Claimant.weight).foldl (· + ·) 0.0

/-- The proportional share of a weight in a pool. -/
def Pool.share (pool : Pool) (weight : Float) : Float :=
  pool.units * weight / pool.weight

/-- Whether a claimant is pinned, or has to be because its share exceeds the capacity. -/
def Claimant.exceeds (pool : Pool) (capacity : Nat) (c : Claimant) : Bool :=
  c.pinned || Binary64.ofNat capacity < pool.share c.weight

def pinRound (total capacity : Nat) (claimants : List Claimant) : List Claimant :=
  let pool := poolOf total capacity claimants
  claimants.map fun c => { c with pinned := c.exceeds pool capacity }

/-- Rounds of pinning, until one pins nobody. Every other round pins at least one claimant, so there
are no more of them than claimants. -/
def settleWithin (total capacity : Nat) : Nat → List Claimant → List Claimant
  | 0, claimants => claimants
  | rounds + 1, claimants =>
    let next := pinRound total capacity claimants
    if next = claimants then claimants else settleWithin total capacity rounds next

/-- The members with large shares pinned. -/
def settle (total capacity : Nat) (weights : List Float) : List Claimant :=
  settleWithin total capacity weights.length (weights.map fun w => ⟨w, false⟩)

/-- A claimant's quota before any unit is moved: the capacity, or its share rounded down. -/
def Claimant.floorQuota (pool : Pool) (capacity : Nat) (c : Claimant) : Nat :=
  if c.pinned then capacity else min (Binary64.wholePart (pool.share c.weight)) capacity

/-- The places of the claimants that are not pinned, the one with the largest fractional part
first and the earlier one first among equal parts. -/
def roundingOrder (pool : Pool) (claimants : List Claimant) : List Nat :=
  let free := claimants.zipIdx.filter fun (c, _) => !c.pinned
  let ranked := free.map fun (c, i) => (Binary64.fractionalUnits (pool.share c.weight), i)
  (sortBy (fun a b => decide (b.1 ≤ a.1)) ranked).map Prod.snd

/-- Quotas and the number of units that are still to be moved. -/
structure Ledger where
  quotas : List Nat
  remaining : Nat

/-- Gives one open unit to the member at a place, if it has room for it. -/
def Ledger.give (capacity : Nat) (l : Ledger) (i : Nat) : Ledger :=
  if 0 < l.remaining ∧ l.quotas[i]?.any (· < capacity) then
    ⟨l.quotas.modify i (· + 1), l.remaining - 1⟩
  else l

/-- Takes one unit too many away from the member at a place, if it has one. -/
def Ledger.take (l : Ledger) (i : Nat) : Ledger :=
  if 0 < l.remaining ∧ l.quotas[i]?.any (0 < ·) then
    ⟨l.quotas.modify i (· - 1), l.remaining - 1⟩
  else l

/-- Rounds over the places in an order, one move each, until nothing is open or a round moves
nothing. A round that goes on has closed at least one unit, so there are no more of them than open
units. -/
def Ledger.closeWithin (move : Ledger → Nat → Ledger) (order : List Nat) : Nat → Ledger → Ledger
  | 0, l => l
  | rounds + 1, l =>
    let next := order.foldl move l
    if next.remaining = l.remaining then l else next.closeWithin move order rounds

/-- Rounds over the places in an order until nothing is open or nothing moves. -/
def Ledger.close (move : Ledger → Nat → Ledger) (order : List Nat) (l : Ledger) : Ledger :=
  l.closeWithin move order l.remaining

/-- Divides `total` units by weight, at most `capacity` for each member. -/
def divide (weights : List Float) (total capacity : Nat) : Except PlacementDefect (List Nat) :=
  if capacity * weights.length < total then
    .error (.tooManyUnits total weights.length capacity)
  else
    let claimants := settle total capacity weights
    let pool := poolOf total capacity claimants
    let quotas := claimants.map (Claimant.floorQuota pool capacity)
    let order := roundingOrder pool claimants
    if sumOf quotas < total then
      -- Rounding down left units over.
      let l := Ledger.close (Ledger.give capacity) order ⟨quotas, total - sumOf quotas⟩
      if l.remaining = 0 then .ok l.quotas else .error (.unplacedUnits l.remaining)
    else
      -- The shares came out too large: the smallest fractional parts give back first.
      let l := Ledger.close Ledger.take order.reverse ⟨quotas, sumOf quotas - total⟩
      if l.remaining = 0 then .ok l.quotas else .error (.overassignedUnits l.remaining)

end ReplicaRing.Quota
