import Mathlib
import ReplicaRing.Proofs.Binary64.Rounding

/-!
# The parts of a double

A double is 64 bits, but it is computed with in parts: a sign, a mantissa and an exponent. The parts
that doubles have are those in canonical form whose exponent is at most 971 (`canonical_of_parts`).
Parts in canonical form are packed without loss, or overflow to an infinity (`unpack_pack_finite`).
-/

namespace ReplicaRing.Binary64

open Float.Model (UnpackedFloat Format)
open Float.Model.UnpackedFloat

/-- A mantissa and an exponent in canonical form: with 53 digits, or with the least exponent. -/
structure Canonical (m : ℕ) (e : ℤ) : Prop where
  lt : m < 2 ^ 53
  le : -1074 ≤ e
  digits : 2 ^ 52 ≤ m ∨ e = -1074

/-- What a double consists of. -/
def parts (x : Float) : UnpackedFloat :=
  x.toModel.unpack

/-! ### Fields -/

theorem toNat_leading_one (m : BitVec 52) : (1#1 ++ m).toNat = 2 ^ 52 + m.toNat := by
  rw [BitVec.toNat_append, ← Nat.shiftLeft_add_eq_or_of_lt m.isLt, Nat.shiftLeft_eq]
  rfl

theorem leading_one_pos (m : BitVec 52) : 0 < (1#1 ++ m).toNat := by
  rw [toNat_leading_one]
  omega

theorem toNat_pos_of_ne_zero {m : BitVec 52} (h : m ≠ 0#52) : 0 < m.toNat :=
  Nat.pos_of_ne_zero fun hzero => h (BitVec.eq_of_toNat_eq hzero)

/-- What a sign, the exponent bits and the fraction bits stand for. -/
def ofFields (s : Sign) (exponent : BitVec 11) (fraction : BitVec 52) : UnpackedFloat :=
  if exponent = -1#11 then if fraction = 0#52 then .infinity s else .notANumber
  else if exponent = 0#11 then
    if h : fraction = 0#52 then .zero s
    else .finite s fraction.toNat (-1074) (toNat_pos_of_ne_zero h)
  else .finite s (1#1 ++ fraction).toNat (exponent.toNat - 1075) (leading_one_pos fraction)

theorem unpack_eq_ofFields (b : BitVec Format.binary64.numBits) :
    unpack Format.binary64 b =
      ofFields (Sign.ofBitVec (unpackSign b)) (unpackExponent b) (unpackMantissa b) := by
  unfold unpack ofFields
  dsimp only
  split
  · rfl
  · split
    · rename_i hzero
      rw [hzero]
      rfl
    · rfl

theorem unpack_packComponents (s : Sign) (exponent : BitVec 11) (fraction : BitVec 52) :
    unpack Format.binary64 (packComponents Format.binary64 s exponent fraction) =
      ofFields s exponent fraction := by
  rw [unpack_eq_ofFields, unpackSign_packComponents, Sign.ofBitVec_toBitVec,
    unpackExponent_packComponents, unpackMantissa_packComponents]

/-- Fields that stand for a number other than zero give canonical parts, and exponents up to 971. -/
theorem canonical_of_ofFields {s s' : Sign} {exponent : BitVec 11} {fraction : BitVec 52} {m : ℕ}
    {e : ℤ} {hm : 0 < m} (h : ofFields s exponent fraction = .finite s' m e hm) :
    Canonical m e ∧ e ≤ 971 := by
  have hfraction := fraction.isLt
  have hexponent := exponent.isLt
  unfold ofFields at h
  split at h
  · split at h <;> cases h
  · rename_i hones
    split at h
    · split at h
      · cases h
      · cases h
        exact ⟨⟨by omega, by omega, Or.inr rfl⟩, by omega⟩
    · rename_i hzero
      cases h
      have hpos : exponent.toNat ≠ 0 := fun hz => hzero (BitVec.eq_of_toNat_eq hz)
      have hmax : exponent.toNat ≠ 2047 := fun hz => hones (BitVec.eq_of_toNat_eq hz)
      rw [toNat_leading_one]
      exact ⟨⟨by omega, by omega, Or.inl (by omega)⟩, by omega⟩

/-- Doubles have canonical parts, and exponents up to 971. -/
theorem canonical_of_parts {x : Float} {s : Sign} {m : ℕ} {e : ℤ} {hm : 0 < m}
    (h : parts x = .finite s m e hm) : Canonical m e ∧ e ≤ 971 := by
  unfold parts Float.Model.unpack at h
  rw [unpack_eq_ofFields] at h
  exact canonical_of_ofFields h

/-! ### Packing -/

theorem parts_ofModel_pack (u : UnpackedFloat) :
    parts (.ofModel (Float.Model.pack u)) = unpack Format.binary64 (pack Format.binary64 u) :=
  rfl

theorem unpack_pack_infinity (s : Sign) :
    unpack Format.binary64 (pack Format.binary64 (.infinity s)) = .infinity s := by
  rw [show pack Format.binary64 (.infinity s) =
    packComponents Format.binary64 s (-1#11) 0#52 from rfl,
    unpack_packComponents]
  rfl

theorem unpack_pack_zero (s : Sign) :
    unpack Format.binary64 (pack Format.binary64 (.zero s)) = .zero s := by
  rw [show pack Format.binary64 (.zero s) = packComponents Format.binary64 s 0#11 0#52 from rfl,
    unpack_packComponents]
  rfl

/-- Packing canonical parts loses nothing, unless the exponent is too large. -/
theorem unpack_pack_finite (s : Sign) {m : ℕ} {e : ℤ} (hm : 0 < m) (hcanonical : Canonical m e) :
    unpack Format.binary64 (pack Format.binary64 (.finite s m e hm)) =
      if e ≤ 971 then .finite s m e hm else .infinity s := by
  obtain ⟨hlt, hle, hdigits⟩ := hcanonical
  have hpack : pack Format.binary64 (.finite s m e hm) =
      if 2 ^ 11 ≤ (e + 1023 + 52).toNat + 1 then packComponents Format.binary64 s (-1#11) 0#52
      else if m.log2 + 1 = 53 then
        packComponents Format.binary64 s (BitVec.ofNat 11 (e + 1023 + 52).toNat) (BitVec.ofNat 52 m)
      else packComponents Format.binary64 s 0#11 (BitVec.ofNat 52 m) := rfl
  rw [hpack]
  by_cases hmax : e ≤ 971
  · rw [if_neg (by omega), if_pos hmax]
    by_cases hnormal : 2 ^ 52 ≤ m
    · have hlog : m.log2 = 52 := (Nat.log2_eq_iff (by omega)).2 ⟨hnormal, hlt⟩
      have hexponent : (BitVec.ofNat 11 (e + 1023 + 52).toNat).toNat = (e + 1075).toNat := by
        rw [BitVec.toNat_ofNat]
        omega
      have hfraction : (1#1 ++ BitVec.ofNat 52 m).toNat = m := by
        rw [toNat_leading_one, BitVec.toNat_ofNat]
        omega
      rw [if_pos (by omega), unpack_packComponents]
      unfold ofFields
      rw [if_neg fun heq => ?_, if_neg fun heq => ?_]
      · simp only [hfraction, hexponent]
        congr 1
        omega
      · have hzero : (e + 1075).toNat = 0 := hexponent.symm.trans (congrArg BitVec.toNat heq)
        omega
      · have hones : (e + 1075).toNat = 2047 := hexponent.symm.trans (congrArg BitVec.toNat heq)
        omega
    · have hlog : m.log2 < 52 := (Nat.log2_lt (by omega)).2 (by omega)
      have hfraction : (BitVec.ofNat 52 m).toNat = m := by
        rw [BitVec.toNat_ofNat]
        omega
      rw [if_neg (by omega), unpack_packComponents]
      unfold ofFields
      rw [if_neg (by decide), if_pos rfl, dif_neg fun heq => ?_]
      · simp only [hfraction]
        congr 1
        omega
      · have hzero : m = 0 := hfraction.symm.trans (congrArg BitVec.toNat heq)
        omega
  · rw [if_pos (by omega), if_neg hmax, unpack_packComponents]
    rfl

end ReplicaRing.Binary64
