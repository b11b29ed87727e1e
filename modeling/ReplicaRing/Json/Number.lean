import ReplicaRing.Decimal.Binary64
import ReplicaRing.Decimal.Reading
import ReplicaRing.Json

/-!
# JSON numbers

A number literal is an optional minus, an integer without leading zeros, an optional fraction and an
optional exponent. Counts have to be written as plain integers. A double is computed from the
leading digits that fit into 64 bits and a power of ten, with a rounding at each of the two steps,
so it may differ from the nearest double in its last bit.
-/

namespace ReplicaRing.Json

/-! ### The grammar -/

/-- The digits at the front of a text, and the rest. -/
def spanDigits (s : List Char) : List Char × List Char :=
  (s.takeWhile Char.isDigit, s.dropWhile Char.isDigit)

/-- At least one digit after what precedes it, and the rest. -/
def readDigits? (before s : List Char) : Option (List Char × List Char) :=
  let (digits, rest) := spanDigits s
  if digits.isEmpty then none else some (before ++ digits, rest)

/-- The integer part: a zero alone, or digits that start with another one. -/
def readWhole? : List Char → Option (List Char × List Char)
  | '0' :: rest => if rest.head?.any Char.isDigit then none else some (['0'], rest)
  | s => readDigits? [] s

/-- The fraction: nothing, or a point and digits. -/
def readFraction? : List Char → Option (List Char × List Char)
  | '.' :: rest => readDigits? ['.'] rest
  | s => some ([], s)

/-- The exponent: nothing, or a mark, an optional sign and digits. -/
def readExponent? : List Char → Option (List Char × List Char)
  | mark :: rest =>
    if mark = 'e' ∨ mark = 'E' then
      match rest with
      | '+' :: digits => readDigits? [mark, '+'] digits
      | '-' :: digits => readDigits? [mark, '-'] digits
      | digits => readDigits? [mark] digits
    else some ([], mark :: rest)
  | [] => some ([], [])

def readMagnitude? (s : List Char) : Option (List Char × List Char) := do
  let (whole, s) ← readWhole? s
  let (fraction, s) ← readFraction? s
  let (exponent, s) ← readExponent? s
  return (whole ++ fraction ++ exponent, s)

/-- The number literal at the front of a text, and the rest. -/
def readNumber? : List Char → Option (List Char × List Char)
  | '-' :: rest => (readMagnitude? rest).map fun (literal, s) => ('-' :: literal, s)
  | s => readMagnitude? s

/-! ### Counts -/

/-- The number that a literal of digits alone spells. -/
def natural? : Json → Option Nat
  | number literal =>
    if literal.all Char.isDigit then some (Decimal.digitsValue literal) else none
  | _ => none

def word32? (json : Json) : Option UInt32 :=
  json.natural?.bind fun n => if n < UInt32.size then some (UInt32.ofNat n) else none

/-! ### Doubles -/

/-- Appends digits to a number as long as it stays below `2 ^ 64`; the digits that are left over
come with it. -/
def appendDigits (n : Nat) : List Char → Nat × List Char
  | [] => (n, [])
  | c :: rest =>
    let m := 10 * n + (c.toNat - '0'.toNat)
    if m < UInt64.size then appendDigits m rest else (n, c :: rest)

/-- The power of ten `10 ^ n`, rounded. -/
def powerOfTen (n : Nat) : Float :=
  Float.ofScientific 1 false n

/-- Divides by `10 ^ e`, at most `10 ^ 308` at a time. -/
def scaleDown : Nat → Float → Nat → Float
  | 0, x, e => x / powerOfTen e
  | steps + 1, x, e =>
    if e ≤ 308 then x / powerOfTen e
    else if x == 0.0 then x
    else scaleDown steps (x / powerOfTen 308) (e - 308)

/-- Multiplies by `10 ^ e`, unless the product is too large. -/
def scaleUp? (x : Float) (e : Nat) : Option Float :=
  if e ≤ 308 then
    let product := x * powerOfTen e
    if product.isInf then none else some product
  else if x == 0.0 then some x
  else none

/-- The double that the digits before and after the point and an exponent stand for. -/
def magnitude? (whole fraction : List Char) (exponent : Int) : Option Float :=
  let (n, dropped) := appendDigits 0 whole
  let (m, unread) := appendDigits n fraction
  -- A digit dropped before the point makes the rest count ten times as much, a digit taken in after
  -- it a tenth.
  let e := exponent + dropped.length - (fraction.length - unread.length : Nat)
  let x := Binary64.ofNat m
  if 0 ≤ e then scaleUp? x e.toNat else some (scaleDown e.natAbs x e.natAbs)

/-- The double that a literal without its sign stands for. -/
def doubleOfMagnitude? (literal : List Char) : Option Float :=
  let (whole, rest) := spanDigits literal
  let (fraction, rest) :=
    match rest with
    | '.' :: tail => spanDigits tail
    | _ => ([], rest)
  (Decimal.readExponent? rest).bind (magnitude? whole fraction)

def double? : Json → Option Float
  | number ('-' :: literal) => (doubleOfMagnitude? literal).map fun x => -x
  | number literal => doubleOfMagnitude? literal
  | _ => none

end ReplicaRing.Json
