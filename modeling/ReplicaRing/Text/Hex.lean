/-!
# Hexadecimal text

Coordinates and ring identifiers are written with a fixed number of lower-case hexadecimal digits,
so that texts of equal length sort as the numbers do.
-/

namespace ReplicaRing.Text

/-- The digits of `n` in base 16, lower-case, without leading zeros. -/
def hexDigits (n : Nat) : List Char :=
  Nat.toDigits 16 n

/-- `n` in base 16, filled up with zeros on the left to at least `width` digits. -/
def hex (width n : Nat) : String :=
  String.ofList ((hexDigits n).leftpad width '0')

end ReplicaRing.Text
