import ReplicaRing.Decimal.Binary64

/-!
# The shortest decimal that reads back

A double is written with as few decimal digits as determine it. The reals that round to a double
form an interval around it, closed exactly when its mantissa is even. Of the grids `10 ^ e`,
coarsest first, the first one with a point in that interval gives the digits. Only the two grid
points next to the double need a look, since every other one is farther away on the same side.
-/

namespace ReplicaRing.Decimal

/-- The number `digits * 10 ^ exponent`. -/
structure Digits where
  digits : Nat
  exponent : Int
deriving DecidableEq

/-- The reals that round to a double, as fractions with one denominator. -/
structure Neighbourhood where
  low : Nat
  value : Nat
  high : Nat
  denominator : Nat
  /-- Whether both ends round to the double too. -/
  closed : Bool

/-- The reals that round to the finite double `x`, its sign aside. The value below a power of two is
half as far away as the value above it, unless both are subnormal neighbours. -/
def neighbourhood (x : Float) : Neighbourhood :=
  let m := Binary64.mantissa x
  let scale := 1 <<< Binary64.shift x
  let below := if Binary64.fractionField x = 0 ∧ 1 < Binary64.exponentField x then 1 else 2
  { low := (4 * m - below) * scale
    value := 4 * m * scale
    high := (4 * m + 2) * scale
    denominator := 4 * Binary64.unitsPerOne
    closed := m % 2 == 0 }

/-- Whether `d * up / (denominator * down)` lies in the neighbourhood; `up / down` is the step of
the grid. -/
def Neighbourhood.holds (n : Neighbourhood) (up down d : Nat) : Bool :=
  let point := d * up * n.denominator
  let low := n.low * down
  let high := n.high * down
  (low < point || (n.closed && low == point)) && (point < high || (n.closed && point == high))

/-- Which of two grid points is taken when they are equally near to the double. -/
inductive TieRule
  /-- The one whose last digit is even. -/
  | even
  | larger
deriving DecidableEq

/-- Whether a rule takes the smaller one of the points `d` and `d + 1`. -/
def TieRule.takesSmaller (rule : TieRule) (d : Nat) : Bool :=
  rule = .even && d % 2 == 0

/-- The point of the grid `10 ^ e` that reads back and lies nearest to the double. -/
def Neighbourhood.onGrid? (n : Neighbourhood) (rule : TieRule) (e : Int) : Option Digits :=
  let up := Nat.pow 10 e.toNat
  let down := Nat.pow 10 (-e).toNat
  let value := n.value * down
  let step := up * n.denominator
  -- `d` is the last point of the grid that is not above the double.
  let d := value / step
  match n.holds up down d, n.holds up down (d + 1) with
  | true, true =>
    let middle := (2 * d + 1) * step
    let smaller := 2 * value < middle || (2 * value == middle && rule.takesSmaller d)
    some ⟨if smaller then d else d + 1, e⟩
  | true, false => some ⟨d, e⟩
  | false, true => some ⟨d + 1, e⟩
  | false, false => none

/-- The grids to try, coarsest first: no finite double reaches `10 ^ 309`, and the finest spacing of
doubles is wider than `10 ^ (-324)`. -/
def grids : List Int :=
  (List.range 633).map fun i : Nat => 308 - Int.ofNat i

/-- The fewest digits that determine the magnitude of the finite double `x`, and among those the
nearest to it. -/
def shortest (rule : TieRule) (x : Float) : Digits :=
  (grids.findSome? ((neighbourhood x).onGrid? rule)).getD
    ⟨Binary64.units x * Nat.pow 5 1074, -1074⟩

example : shortest .larger 0.1 = ⟨1, -1⟩ := by decide +kernel
example : shortest .larger 1e23 = ⟨1, 23⟩ := by decide +kernel
example : shortest .larger 5e-324 = ⟨5, -324⟩ := by decide +kernel
example : shortest .larger (0.1 + 0.2) = ⟨30000000000000004, -17⟩ := by decide +kernel
example : shortest .larger 1205873857500924.25 = ⟨12058738575009243, -1⟩ := by decide +kernel
example : shortest .even 1205873857500924.25 = ⟨12058738575009242, -1⟩ := by decide +kernel

end ReplicaRing.Decimal
