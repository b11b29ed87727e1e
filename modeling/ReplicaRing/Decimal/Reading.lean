/-!
# Reading decimals

A number in the line formats is an optional sign, digits with at most one point among or beside
them, and an optional exponent; or one of the words `nan`, `inf` and `infinity`, whatever their
case. The value is the double nearest to what is written, so numbers too large for a double read as
an infinity and numbers too small as zero.
-/

namespace ReplicaRing.Decimal

def digitsValue (ds : List Char) : Nat :=
  ds.foldl (fun n c => 10 * n + (c.toNat - '0'.toNat)) 0

/-- Splits an optional sign off; `true` stands for a minus. -/
def splitSign : List Char → Bool × List Char
  | '-' :: rest => (true, rest)
  | '+' :: rest => (false, rest)
  | s => (false, s)

/-- An exponent part: nothing, or the mark, an optional sign and at least one digit. -/
def readExponent? : List Char → Option Int
  | [] => some 0
  | c :: rest =>
    if c = 'e' ∨ c = 'E' then
      let (negative, ds) := splitSign rest
      if ds.isEmpty || !ds.all Char.isDigit then none
      else some (if negative then -(digitsValue ds : Int) else digitsValue ds)
    else none

/-- The double nearest to `m * 10 ^ e`. -/
def scaled (m : Nat) (e : Int) : Float :=
  Float.ofScientific m (e < 0) e.natAbs

/-- A number without its sign: digits, a point, digits and an exponent part, with at least one digit
before or after the point. -/
def readMagnitude? (s : List Char) : Option Float :=
  let whole := s.takeWhile Char.isDigit
  let rest := s.dropWhile Char.isDigit
  let (fraction, rest) :=
    match rest with
    | '.' :: tail => (tail.takeWhile Char.isDigit, tail.dropWhile Char.isDigit)
    | _ => ([], rest)
  if whole.isEmpty && fraction.isEmpty then none
  else (readExponent? rest).map fun e =>
    scaled (digitsValue (whole ++ fraction)) (e - fraction.length)

/-- The special values that have a word of their own. -/
def readWord? (s : List Char) : Option Float :=
  let word := s.map Char.toLower
  if word = "nan".toList then some (0.0 / 0.0)
  else if word = "inf".toList ∨ word = "infinity".toList then some (1.0 / 0.0)
  else none

/-- The double that a text spells, if it spells one. -/
def read? (s : List Char) : Option Float :=
  let (negative, rest) := splitSign s
  ((readMagnitude? rest).orElse fun _ => readWord? rest).map fun x => if negative then -x else x

example : read? "1e-3".toList = some 0.001 := by decide +kernel
example : read? "+.5".toList = some 0.5 := by decide +kernel
example : read? "5.".toList = some 5.0 := by decide +kernel
example : read? "1_000".toList = none := by decide +kernel
example : read? ".".toList = none := by decide +kernel

end ReplicaRing.Decimal
