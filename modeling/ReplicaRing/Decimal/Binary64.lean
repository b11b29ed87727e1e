/-!
# Doubles as exact numbers

Shares are computed with the doubles of IEEE 754, but counting units and choosing digits needs the
exact number that a double stands for. Every finite double is a whole multiple of `2 ^ (-1074)`,
the least positive one, so its magnitude is a natural number of such units and no rounding is left
in anything derived from it.
-/

namespace ReplicaRing.Binary64

/-- The eleven exponent bits. -/
def exponentField (x : Float) : Nat :=
  ((x.toBits >>> 52) &&& 0x7FF).toNat

/-- The fifty-two bits after the leading one. -/
def fractionField (x : Float) : Nat :=
  (x.toBits &&& 0xFFFFFFFFFFFFF).toNat

def isNegative (x : Float) : Bool :=
  x.toBits >>> 63 == 1

/-- The integer that holds the significant bits of a finite double. -/
def mantissa (x : Float) : Nat :=
  if exponentField x = 0 then fractionField x else 0x10000000000000 + fractionField x

/-- The power of two that the `mantissa` of a finite double counts, less `-1074`. -/
def shift (x : Float) : Nat :=
  exponentField x - 1

/-- The magnitude of a finite double as a number of units of `2 ^ (-1074)`. What is not finite has
none. -/
def units (x : Float) : Nat :=
  if exponentField x = 0x7FF then 0 else mantissa x <<< shift x

def unitsPerOne : Nat :=
  1 <<< 1074

def wholePart (x : Float) : Nat :=
  units x / unitsPerOne

/-- What is left of the magnitude beyond its whole part, in units of `2 ^ (-1074)`. -/
def fractionalUnits (x : Float) : Nat :=
  units x % unitsPerOne

/-- The double nearest to `n`, of two equally near ones the one with an even mantissa. -/
def ofNat (n : Nat) : Float :=
  Float.ofScientific n false 0

/-- Whether `x` can be a weight: finite and greater than zero. -/
def isPositive (x : Float) : Bool :=
  x.isFinite && 0.0 < x

/-! ### Bits -/

open Float.Model in
/-- Whether 64 bits are those of a double: of the bits that stand for no number only one pattern is
in use. -/
def AreBits (bits : UInt64) : Prop :=
  Format.binary64.Valid bits.toBitVec

instance (bits : UInt64) : Decidable (AreBits bits) :=
  open Float.Model in
  let b : BitVec Format.binary64.numBits := bits.toBitVec
  decidable_of_iff
    (UnpackedFloat.unpackExponent b = -1 → UnpackedFloat.unpackMantissa b ≠ 0 →
      b = UnpackedFloat.packedNaN Format.binary64)
    ⟨fun h => ⟨h⟩, fun h => h.1⟩

/-- The double with given bits. All patterns that stand for no number are one double. -/
def ofBits (bits : UInt64) : Float :=
  if h : AreBits bits then .ofModel ⟨bits, h⟩ else 0.0 / 0.0

theorem ofBits_toBits (x : Float) : ofBits x.toBits = x :=
  dif_pos (show AreBits x.toBits from x.toModel.valid)

example : ofBits 0x7FF0000000000001 = ofBits 0xFFF8000000000000 := by decide +kernel
example : wholePart 2.75 = 2 := by decide +kernel
example : fractionalUnits 2.75 = 3 <<< 1072 := by decide +kernel
example : ofNat (UInt64.size - 1) = 18446744073709551616.0 := by decide +kernel

end ReplicaRing.Binary64
