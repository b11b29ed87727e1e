import ReplicaRing.Decimal.Shortest

/-!
# Laying out digits

Which digits are written is settled by `shortest` but for ties; how ties are broken, where the point
goes, whether an exponent is written and how special values are spelled is a `Layout`. Three of them
are in use: messages show weights without an exponent, tolerances with one, and documents write
numbers as JSON does.
-/

namespace ReplicaRing.Decimal

/-- How a double is written. -/
structure Layout where
  /-- Which digits are written when two choices are equally near. -/
  tieRule : TieRule
  /-- Whether a number whose leading digit counts `10 ^ e` is written without an exponent. -/
  positional : Int → Bool
  /-- Whether a whole number written without an exponent still shows `.0`. -/
  showsPoint : Bool
  /-- The texts of what is not a number, and of the two infinities. -/
  notANumber : String
  infinity : String
  negativeInfinity : String

/-- The decimal digits of `n`, most significant first. -/
def digitsOf (n : Nat) : List Char :=
  Nat.toDigits 10 n

/-- The digits `ds`, of which the last counts `10 ^ e`, written without an exponent. -/
def positionalText (showsPoint : Bool) (ds : List Char) (e : Int) : List Char :=
  let fraction := (-e).toNat
  if 0 ≤ e then
    ds ++ List.replicate e.toNat '0' ++ (if showsPoint then ['.', '0'] else [])
  else if fraction < ds.length then
    ds.take (ds.length - fraction) ++ '.' :: ds.drop (ds.length - fraction)
  else
    '0' :: '.' :: List.replicate (fraction - ds.length) '0' ++ ds

/-- The digits `ds`, of which the first counts `10 ^ e`, written with an exponent. -/
def exponentText (ds : List Char) (e : Int) : List Char :=
  let mark := 'e' :: (toString e).toList
  match ds with
  | [] => mark
  | [d] => d :: mark
  | d :: rest => d :: '.' :: rest ++ mark

def Layout.magnitude (layout : Layout) (x : Float) : List Char :=
  let d : Digits := if Binary64.units x = 0 then ⟨0, 0⟩ else shortest layout.tieRule x
  let ds := digitsOf d.digits
  -- The power of ten that the first digit counts.
  let leading := d.exponent + ds.length - 1
  if layout.positional leading then positionalText layout.showsPoint ds d.exponent
  else exponentText ds leading

/-- A double in a layout: the shortest digits that read back, signed. -/
def Layout.render (layout : Layout) (x : Float) : String :=
  if x.isNaN then layout.notANumber
  else if x.isFinite then
    let text := layout.magnitude x
    String.ofList (if Binary64.isNegative x then '-' :: text else text)
  else if Binary64.isNegative x then layout.negativeInfinity else layout.infinity

/-- Weights and limits in messages: never an exponent. -/
def plainLayout : Layout where
  tieRule := .larger
  positional _ := true
  showsPoint := false
  notANumber := "NaN"
  infinity := "inf"
  negativeInfinity := "-inf"

/-- Tolerances and deviations in messages: always an exponent. -/
def exponentLayout : Layout where
  tieRule := .larger
  positional _ := false
  showsPoint := false
  notANumber := "NaN"
  infinity := "inf"
  negativeInfinity := "-inf"

/-- Numbers in documents: an exponent from `10 ^ 16` on and below `10 ^ (-5)`, a point in every
other number, and `null` for what JSON cannot write. -/
def documentLayout : Layout where
  tieRule := .even
  positional e := -5 ≤ e && e < 16
  showsPoint := true
  notANumber := "null"
  infinity := "null"
  negativeInfinity := "null"

def plain (x : Float) : String :=
  plainLayout.render x

def withExponent (x : Float) : String :=
  exponentLayout.render x

example : plain 1e21 = "1000000000000000000000" := by decide +kernel
example : plain (-0.0) = "-0" := by decide +kernel
example : withExponent 150.0 = "1.5e2" := by decide +kernel
example : withExponent 0.0 = "0e0" := by decide +kernel
example : documentLayout.render 1e16 = "1e16" := by decide +kernel

end ReplicaRing.Decimal
