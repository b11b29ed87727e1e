import ReplicaRing.Proofs.Binary64.Packing

/-!
# Arithmetic of the parts of doubles

Multiplying, dividing and adding parts that are not negative gives the number of the format nearest
to the exact result (`denotes_mul`, `denotes_div`, `denotes_add`), and comparing them compares the
numbers (`denotes_compare`). All three operations hand over an exact mantissa, or its whole part
with what is known about the rest (`Approximates`), to one function that drops digits and rounds
(`denotes_roundWithAccuracy`). It drops digits only, so it has to be given a number on its grid or
finer.
-/

namespace ReplicaRing.Binary64

open Float.Model (UnpackedFloat Format totalExponent)
open Float.Model.UnpackedFloat

/-! ### Mantissas with two more digits -/

/-- The number that a mantissa and its round bit stand for. -/
def floorHalf (em : ExtendedMantissa) : ℚ :=
  em.mantissa + if em.roundBit then 1 / 2 else 0

/-- An extended mantissa is what `y` is down to the next half, and whether anything is left. -/
structure Approximates (y : ℚ) (em : ExtendedMantissa) : Prop where
  le : floorHalf em ≤ y
  lt : y < floorHalf em + 1 / 2
  sticky : em.stickyBit = true ↔ floorHalf em < y

namespace Approximates

variable {y : ℚ} {em : ExtendedMantissa}

theorem floor (h : Approximates y em) : ⌊y⌋₊ = em.mantissa := by
  have hle := h.le
  have hlt := h.lt
  have hnonneg : (0 : ℚ) ≤ em.mantissa := Nat.cast_nonneg _
  unfold floorHalf at hle hlt
  refine (Nat.floor_eq_iff ?_).2 ⟨?_, ?_⟩ <;> split_ifs at hle hlt <;> linarith

theorem roundedMantissa (h : Approximates y em) : em.roundedMantissa = roundEven y := by
  unfold roundEven
  rw [h.floor]
  obtain ⟨m, roundBit, stickyBit⟩ := em
  obtain ⟨hle, hlt, hsticky⟩ := h
  cases roundBit <;> cases stickyBit <;> simp only [floorHalf] at hle hlt hsticky ⊢ <;>
    norm_num at hle hlt hsticky
  · rw [if_pos (by linarith)]
    rfl
  · rw [if_pos hlt]
    rfl
  · rw [if_neg (by linarith), if_pos (by linarith)]
    rfl
  · rw [if_neg (by linarith), if_neg (by linarith)]
    rfl

theorem floorHalf_shiftRightOne (em : ExtendedMantissa) :
    floorHalf em.shiftRightOne = em.mantissa / 2 := by
  have hdigits : ((em.mantissa % 2 : ℕ) : ℚ) + 2 * ((em.mantissa / 2 : ℕ) : ℚ) = em.mantissa := by
    exact_mod_cast Nat.mod_add_div em.mantissa 2
  unfold floorHalf ExtendedMantissa.shiftRightOne
  rcases Nat.mod_two_eq_zero_or_one em.mantissa with hm | hm
  all_goals
    rw [hm] at hdigits
    simp [hm]
    push_cast at hdigits
    linarith

/-- Dropping a digit halves the number. -/
theorem shiftRightOne (h : Approximates y em) : Approximates (y / 2) em.shiftRightOne := by
  obtain ⟨m, roundBit, stickyBit⟩ := em
  obtain ⟨hle, hlt, hsticky⟩ := h
  refine ⟨?_, ?_, ?_⟩
  all_goals
    rw [floorHalf_shiftRightOne]
    cases roundBit <;> simp only [floorHalf, Bool.false_eq_true, if_true, if_false, add_zero] at *
  · linarith
  · linarith
  · linarith
  · linarith
  · -- Nothing was left behind the mantissa before, so the sticky bit tells whether anything is.
    rw [div_lt_div_iff_of_pos_right two_pos, ← hsticky]
    rfl
  · exact iff_of_true rfl (by linarith)

theorem shiftRight (h : Approximates y em) (n : ℕ) : Approximates (y / 2 ^ n) (em >>> n) := by
  show Approximates _ (n.repeat ExtendedMantissa.shiftRightOne em)
  induction n with
  | zero => rwa [pow_zero, div_one]
  | succ n ih =>
    rw [pow_succ, ← div_div]
    exact ih.shiftRightOne

end Approximates

theorem approximates_exact (m : ℕ) :
    Approximates m (ExtendedMantissa.ofMantissaAndAccuracy m .exact) := by
  constructor <;> simp [floorHalf, ExtendedMantissa.ofMantissaAndAccuracy]

/-! ### Rounding parts -/

/-- Parts in canonical form without a sign stand for a number. -/
inductive Denotes : UnpackedFloat → ℚ → Prop
  | zero : Denotes (.zero .positive) 0
  | finite {m : ℕ} {e : ℤ} (hm : 0 < m) : Canonical m e →
      Denotes (.finite .positive m e hm) (m * 2 ^ e)

theorem targetExponent_totalExponent (m : ℕ) (e : ℤ) :
    Format.binary64.targetExponent (totalExponent m e) = max (m.log2 + 1 + e - 53) (-1074) :=
  rfl

/-- Where the leading digit is known, so is the grid. -/
theorem targetExponent_eq_of_pos {x : ℚ} {m : ℕ} {e : ℤ} (hm : 0 < m) (hle : m * 2 ^ e ≤ x)
    (hlt : x < (m + 1) * 2 ^ e) : Format.binary64.targetExponent (totalExponent m e) = grid x := by
  have hx : 0 < x := (mul_pos (Nat.cast_pos.2 hm) (two_zpow_pos e)).trans_le hle
  have hlow : (m.log2 : ℤ) + e ≤ Int.log 2 x := by
    refine (Int.zpow_le_iff_le_log Nat.one_lt_two hx).1 (le_trans ?_ hle)
    rw [Nat.cast_ofNat, zpow_add₀ two_ne_zero, zpow_natCast]
    refine mul_le_mul_of_nonneg_right ?_ (two_zpow_pos e).le
    exact_mod_cast Nat.log2_self_le hm.ne'
  have hhigh : Int.log 2 x < m.log2 + 1 + e := by
    refine (Int.lt_zpow_iff_log_lt Nat.one_lt_two hx).1 (lt_of_lt_of_le hlt ?_)
    rw [Nat.cast_ofNat, zpow_add₀ two_ne_zero, ← Nat.cast_succ, ← Nat.cast_succ, zpow_natCast]
    refine mul_le_mul_of_nonneg_right ?_ (two_zpow_pos e).le
    exact_mod_cast Nat.lt_log2_self
  rw [targetExponent_totalExponent]
  unfold grid
  omega

/-- A number that is known down to a digit on its grid is rounded from there. -/
theorem targetExponent_eq {x : ℚ} {m : ℕ} {e : ℤ} (hx : 0 < x) (hm : ⌊x / 2 ^ e⌋₊ = m)
    (he : e ≤ grid x) : Format.binary64.targetExponent (totalExponent m e) = grid x := by
  rcases Nat.eq_zero_or_pos m with rfl | hpos
  · -- Without a digit the number is so small that the grid is the finest one.
    have hlt : x < 2 ^ e := by
      rw [Nat.floor_eq_zero] at hm
      rwa [div_lt_one (two_zpow_pos e)] at hm
    have hlog : Int.log 2 x < e := by
      refine (Int.lt_zpow_iff_log_lt Nat.one_lt_two hx).1 ?_
      rwa [Nat.cast_ofNat]
    rw [targetExponent_totalExponent, Nat.log2_zero]
    unfold grid at he ⊢
    omega
  · have hbounds := (Nat.floor_eq_iff (div_nonneg hx.le (two_zpow_pos e).le)).1 hm
    rw [le_div_iff₀ (two_zpow_pos e), div_lt_iff₀ (two_zpow_pos e)] at hbounds
    exact targetExponent_eq_of_pos hpos hbounds.1 hbounds.2

theorem mantissa_ofMantissaAndAccuracy (m : ℕ) (accuracy : Accuracy) :
    (ExtendedMantissa.ofMantissaAndAccuracy m accuracy).mantissa = m := by
  match accuracy with
  | .exact | .inexact .lt | .inexact .eq | .inexact .gt => rfl

theorem shiftToTargetExponent_eq {m : ℕ} {e g : ℤ} {accuracy : Accuracy}
    (hg : Format.binary64.targetExponent (totalExponent m e) = g) (he : e ≤ g) :
    shiftToTargetExponent Format.binary64 m e accuracy =
      (ExtendedMantissa.ofMantissaAndAccuracy m accuracy >>> (g - e).toNat, g) := by
  unfold shiftToTargetExponent shiftToExponent
  dsimp only
  rw [hg, Int.toNat_of_nonneg (by omega), add_sub_cancel]

/-- Rounding may have added a digit, which is dropped again. -/
theorem shiftToTargetExponent_rounded {r : ℕ} {g : ℤ} (hr : 0 < r) (hle : r ≤ 2 ^ 53)
    (hg : -1074 ≤ g) (hdigits : 2 ^ 52 ≤ r ∨ g = -1074) :
    let out := shiftToTargetExponent Format.binary64 r g .exact
    0 < out.1.mantissa ∧ Canonical out.1.mantissa out.2 ∧
      (out.1.mantissa : ℚ) * 2 ^ out.2 = r * 2 ^ g := by
  intro out
  have htarget := targetExponent_totalExponent r g
  rcases Nat.eq_or_lt_of_le hle with rfl | hlt
  · have hnext : Format.binary64.targetExponent (totalExponent (2 ^ 53) g) = g + 1 := by
      rw [htarget, Nat.log2_two_pow]
      omega
    have hout : out = (⟨2 ^ 52, false, false⟩, g + 1) := by
      show shiftToTargetExponent Format.binary64 (2 ^ 53) g .exact = _
      rw [shiftToTargetExponent_eq hnext (by omega), show (g + 1 - g).toNat = 1 by omega]
      rfl
    rw [hout]
    refine ⟨by norm_num, ⟨by norm_num, by omega, Or.inl (Nat.le_refl _)⟩, ?_⟩
    rw [zpow_add₀ two_ne_zero]
    push_cast
    ring
  · have hlog : r.log2 < 53 := (Nat.log2_lt hr.ne').2 hlt
    have hout : out = (⟨r, false, false⟩, g) := by
      show shiftToExponent r g .exact _ = _
      unfold shiftToExponent
      rw [htarget, show (max (r.log2 + 1 + g - 53) (-1074) - g).toNat = 0 by omega]
      simp only [Nat.cast_zero, add_zero]
      rfl
    rw [hout]
    exact ⟨hr, ⟨hlt, hg, hdigits⟩, rfl⟩

theorem mantissa_shift_zero (n : ℕ) :
    (ExtendedMantissa.ofMantissaAndAccuracy 0 .exact >>> n).mantissa = 0 := by
  have h := ((approximates_exact 0).shiftRight n).floor
  rwa [Nat.cast_zero, zero_div, Nat.floor_zero, eq_comm] at h

/-- Rounding parts gives the number of the format that is nearest to what they are known of. -/
theorem denotes_roundWithAccuracy {x : ℚ} {m : ℕ} {e : ℤ} {accuracy : Accuracy} (hx : 0 < x)
    (h : Approximates (x / 2 ^ e) (.ofMantissaAndAccuracy m accuracy)) (he : e ≤ grid x) :
    Denotes (roundWithAccuracy Format.binary64 .positive m e accuracy) (nearest x) := by
  have hm : ⌊x / 2 ^ e⌋₊ = m := by
    rw [h.floor, mantissa_ofMantissaAndAccuracy]
  have hshifted : Approximates (x / 2 ^ grid x)
      (ExtendedMantissa.ofMantissaAndAccuracy m accuracy >>> (grid x - e).toNat) := by
    have hshift := h.shiftRight (grid x - e).toNat
    rwa [div_div, ← zpow_natCast, ← zpow_add₀ two_ne_zero, Int.toNat_of_nonneg (by omega),
      add_sub_cancel] at hshift
  unfold roundWithAccuracy
  rw [shiftToTargetExponent_eq (targetExponent_eq hx hm he) he]
  dsimp only
  rw [hshifted.roundedMantissa]
  unfold nearest
  generalize hr : roundEven (x / 2 ^ grid x) = r
  rcases Nat.eq_zero_or_pos r with rfl | hpos
  · rw [dif_pos, Nat.cast_zero, zero_mul]
    · exact .zero
    · exact mantissa_shift_zero _
  · have hle : r ≤ 2 ^ 53 := hr ▸ roundEven_div_grid_le x
    have hdigits : 2 ^ 52 ≤ r ∨ grid x = -1074 := by
      rcases (neg_le_grid x).eq_or_lt with hgrid | hgrid
      · exact Or.inr hgrid.symm
      · rw [← hr]
        exact Or.inl (le_roundEven_of_le (by exact_mod_cast le_div_grid hx hgrid))
    obtain ⟨hpos', hcanonical, hvalue⟩ :=
      shiftToTargetExponent_rounded hpos hle (neg_le_grid x) hdigits
    rw [dif_neg hpos'.ne', ← hvalue]
    exact .finite hpos' hcanonical

/-! ### Operations on parts -/

theorem le_grid_of_le {x : ℚ} {e : ℤ} (hx : 0 < x) (h : 2 ^ (e + 52) ≤ x) : e ≤ grid x := by
  have hlog : e + 52 ≤ Int.log 2 x := by
    refine (Int.zpow_le_iff_le_log Nat.one_lt_two hx).1 ?_
    rwa [Nat.cast_ofNat]
  unfold grid
  omega

/-- Rounding parts that need not be canonical. -/
theorem denotes_round {m : ℕ} (hm : 0 < m) (e : ℤ) :
    Denotes (UnpackedFloat.round Format.binary64 .positive m e) (nearest (m * 2 ^ e)) := by
  have hx : (0 : ℚ) < m * 2 ^ e := mul_pos (Nat.cast_pos.2 hm) (two_zpow_pos e)
  have hgrid : Format.binary64.targetExponent (totalExponent m e) = grid (m * 2 ^ e) := by
    refine targetExponent_eq_of_pos hm (le_refl _) ?_
    exact mul_lt_mul_of_pos_right (by linarith) (two_zpow_pos e)
  unfold UnpackedFloat.round decreaseExponent
  dsimp only
  rw [hgrid]
  refine denotes_roundWithAccuracy hx ?_ (by omega)
  have hsame : (m * 2 ^ e : ℚ) / 2 ^ (e - ((e - grid (m * 2 ^ e)).toNat : ℤ)) =
      ((m <<< (e - grid (m * 2 ^ e)).toNat : ℕ) : ℚ) := by
    rw [div_eq_iff (two_zpow_pos _).ne', Nat.shiftLeft_eq, Nat.cast_mul, Nat.cast_pow,
      Nat.cast_ofNat, ← zpow_natCast, mul_assoc, ← zpow_add₀ two_ne_zero, add_sub_cancel]
  rw [hsame]
  exact approximates_exact _

theorem denotes_normalize (m : ℕ) (e : ℤ) :
    Denotes (UnpackedFloat.normalize Format.binary64 m e .positive) (nearest (m * 2 ^ e)) := by
  unfold UnpackedFloat.normalize
  rcases Nat.eq_zero_or_pos m with rfl | hm
  · have hzero : ((0 : ℕ) : ℚ) * 2 ^ e = 0 := by rw [Nat.cast_zero, zero_mul]
    rw [hzero, nearest_zero]
    exact .zero
  · rw [show compare (m : ℤ) 0 = .gt from compare_gt_iff_gt.2 (by omega)]
    exact denotes_round hm e

/-- Parts are multiplied as numbers if their product has the digits of the format, or is on the
finest grid anyway. -/
theorem denotes_mul_finite {m m' : ℕ} {e e' : ℤ} (hm : 0 < m) (hm' : 0 < m')
    (h : 2 ^ 52 ≤ m * m' ∨ e + e' ≤ -1074) :
    Denotes (mul Format.binary64 (.finite .positive m e hm) (.finite .positive m' e' hm'))
      (nearest (m * 2 ^ e * (m' * 2 ^ e'))) := by
  have hvalue : (m * 2 ^ e * (m' * 2 ^ e') : ℚ) = ((m * m' : ℕ) : ℚ) * 2 ^ (e + e') := by
    rw [zpow_add₀ two_ne_zero]
    push_cast
    ring
  have hpos : (0 : ℚ) < ((m * m' : ℕ) : ℚ) * 2 ^ (e + e') :=
    mul_pos (Nat.cast_pos.2 (Nat.mul_pos hm hm')) (two_zpow_pos _)
  rw [hvalue]
  refine denotes_roundWithAccuracy hpos ?_ ?_
  · rw [mul_div_cancel_right₀ _ (two_zpow_pos _).ne']
    exact approximates_exact _
  · rcases h with hdigits | hfinest
    · refine le_grid_of_le hpos ?_
      rw [add_comm, zpow_add₀ two_ne_zero]
      refine mul_le_mul_of_nonneg_right ?_ (two_zpow_pos _).le
      exact_mod_cast hdigits
    · exact hfinest.trans (neg_le_grid _)

theorem denotes_mul {a b : UnpackedFloat} {v w : ℚ} (ha : Denotes a v) (hb : Denotes b w) :
    Denotes (mul Format.binary64 a b) (nearest (v * w)) := by
  cases ha with
  | zero =>
    rw [zero_mul, nearest_zero]
    cases hb <;> exact .zero
  | @finite m e hm hcanonical =>
    cases hb with
    | zero =>
      rw [mul_zero, nearest_zero]
      exact .zero
    | @finite m' e' hm' hcanonical' =>
      -- Unless both are below the normal range, one of the two has 53 digits.
      refine denotes_mul_finite hm hm' ?_
      rcases hcanonical.digits with hdigits | hleast
      · exact Or.inl (hdigits.trans (Nat.le_mul_of_pos_right _ hm'))
      · rcases hcanonical'.digits with hdigits | hleast'
        · exact Or.inl (hdigits.trans (Nat.le_mul_of_pos_left _ hm))
        · exact Or.inr (by omega)

theorem approximates_fraction (a : ℕ) {b : ℕ} (hb : 0 < b) :
    Approximates ((a : ℚ) / b)
      (.ofMantissaAndAccuracy (a / b) (accuracyOfFraction (a % b) b)) := by
  have hb' : (0 : ℚ) < b := Nat.cast_pos.2 hb
  have hdivision : (a : ℚ) / b = (a / b : ℕ) + ((a % b : ℕ) : ℚ) / b := by
    rw [add_div' _ _ _ hb'.ne', div_left_inj' hb'.ne', ← Nat.cast_mul, ← Nat.cast_add,
      Nat.div_add_mod']
  rw [hdivision]
  have hlt : ((a % b : ℕ) : ℚ) / b < 1 := by
    rw [div_lt_one hb']
    exact_mod_cast Nat.mod_lt a hb
  have hhalf : ((a % b : ℕ) : ℚ) / b < 1 / 2 ↔ 2 * (a % b) < b := by
    rw [div_lt_div_iff₀ hb' two_pos, one_mul, mul_comm]
    exact_mod_cast Iff.rfl
  have hhalf' : ((a % b : ℕ) : ℚ) / b = 1 / 2 ↔ 2 * (a % b) = b := by
    rw [div_eq_div_iff hb'.ne' two_ne_zero, one_mul, mul_comm]
    exact_mod_cast Iff.rfl
  unfold accuracyOfFraction
  split_ifs with hzero
  · rw [hzero, Nat.cast_zero, zero_div, add_zero]
    exact approximates_exact _
  · have hpos : 0 < ((a % b : ℕ) : ℚ) / b := div_pos (Nat.cast_pos.2 (by omega)) hb'
    rcases lt_trichotomy (2 * (a % b)) b with h | h | h
    · rw [compare_lt_iff_lt.2 h]
      have := hhalf.2 h
      constructor <;> simp [floorHalf, ExtendedMantissa.ofMantissaAndAccuracy] <;> linarith
    · rw [compare_eq_iff_eq.2 h, hhalf'.2 h]
      constructor <;> simp [floorHalf, ExtendedMantissa.ofMantissaAndAccuracy]
    · rw [compare_gt_iff_gt.2 h]
      have : 1 / 2 < ((a % b : ℕ) : ℚ) / b :=
        lt_of_le_of_ne (not_lt.1 fun hl => by have := hhalf.1 hl; omega)
          fun heq => by have := hhalf'.1 heq.symm; omega
      constructor <;> simp [floorHalf, ExtendedMantissa.ofMantissaAndAccuracy] <;> linarith

theorem Denotes.nonneg {a : UnpackedFloat} {v : ℚ} (h : Denotes a v) : 0 ≤ v := by
  cases h with
  | zero => exact le_refl 0
  | finite _ _ => exact mul_nonneg (Nat.cast_nonneg _) (two_zpow_pos _).le

/-- The number lies between the powers of two that its leading digit tells. -/
theorem totalExponent_bounds {m : ℕ} (hm : 0 < m) (e : ℤ) :
    (2 : ℚ) ^ (totalExponent m e - 1) ≤ m * 2 ^ e ∧ (m * 2 ^ e : ℚ) < 2 ^ totalExponent m e := by
  unfold totalExponent
  constructor
  · rw [show (m.log2 : ℤ) + 1 + e - 1 = m.log2 + e by omega, zpow_add₀ two_ne_zero, zpow_natCast]
    refine mul_le_mul_of_nonneg_right ?_ (two_zpow_pos e).le
    exact_mod_cast Nat.log2_self_le hm.ne'
  · rw [zpow_add₀ two_ne_zero, ← Nat.cast_succ, zpow_natCast]
    refine mul_lt_mul_of_pos_right ?_ (two_zpow_pos e)
    exact_mod_cast Nat.lt_log2_self

/-- The quotient is computed with all the digits that rounding needs. -/
theorem targetExponent_le_grid {m m' : ℕ} (hm : 0 < m) (hm' : 0 < m') (e e' : ℤ) :
    Format.binary64.targetExponent (totalExponent m e - totalExponent m' e') ≤
      grid (m * 2 ^ e / (m' * 2 ^ e')) := by
  obtain ⟨hlow, -⟩ := totalExponent_bounds hm e
  obtain ⟨-, hhigh⟩ := totalExponent_bounds hm' e'
  have hx : (0 : ℚ) < m * 2 ^ e := mul_pos (Nat.cast_pos.2 hm) (two_zpow_pos e)
  have hx' : (0 : ℚ) < m' * 2 ^ e' := mul_pos (Nat.cast_pos.2 hm') (two_zpow_pos e')
  have hlog : totalExponent m e - 1 - totalExponent m' e' ≤
      Int.log 2 (m * 2 ^ e / (m' * 2 ^ e') : ℚ) := by
    refine (Int.zpow_le_iff_le_log Nat.one_lt_two (div_pos hx hx')).1 ?_
    rw [Nat.cast_ofNat, zpow_sub₀ two_ne_zero]
    exact div_le_div₀ hx.le hlow hx' hhigh.le
  have htarget : Format.binary64.targetExponent (totalExponent m e - totalExponent m' e') =
      max (totalExponent m e - totalExponent m' e' - 53) (-1074) := rfl
  rw [htarget]
  unfold grid
  omega

theorem denotes_div {a b : UnpackedFloat} {v w : ℚ} (ha : Denotes a v) (hb : Denotes b w)
    (hw : 0 < w) : Denotes (div Format.binary64 a b) (nearest (v / w)) := by
  cases hb with
  | zero => exact absurd hw (lt_irrefl 0)
  | @finite m' e' hm' _ =>
    cases ha with
    | zero =>
      rw [zero_div, nearest_zero]
      exact .zero
    | @finite m e hm _ =>
      have hx : (0 : ℚ) < m * 2 ^ e / (m' * 2 ^ e') :=
        div_pos (mul_pos (Nat.cast_pos.2 hm) (two_zpow_pos e)) hw
      have hgrid := targetExponent_le_grid hm hm' e e'
      unfold div divCore
      dsimp only
      generalize Format.binary64.targetExponent (totalExponent m e - totalExponent m' e') = target
        at hgrid ⊢
      refine denotes_roundWithAccuracy hx ?_ ((min_le_right _ _).trans hgrid)
      have hvalue : (m * 2 ^ e / (m' * 2 ^ e') : ℚ) / 2 ^ min (e - e') target =
          ((m <<< (e - e' - min (e - e') target).toNat : ℕ) : ℚ) / m' := by
        rw [Nat.shiftLeft_eq, Nat.cast_mul, Nat.cast_pow, Nat.cast_ofNat, ← zpow_natCast,
          Int.toNat_of_nonneg (by omega), zpow_sub₀ two_ne_zero, zpow_sub₀ two_ne_zero]
        field_simp
      rw [hvalue]
      exact approximates_fraction _ hm'

theorem Denotes.representable {a : UnpackedFloat} {v : ℚ} (h : Denotes a v) :
    Representable v := by
  cases h with
  | zero => exact ⟨0, 0, by norm_num, by norm_num, by norm_num⟩
  | finite _ hcanonical => exact ⟨_, _, hcanonical.lt, hcanonical.le, rfl⟩

theorem denotes_add {a b : UnpackedFloat} {v w : ℚ} (ha : Denotes a v) (hb : Denotes b w) :
    Denotes (add Format.binary64 a b) (nearest (v + w)) := by
  cases ha with
  | zero =>
    rw [zero_add, nearest_of_representable hb.representable]
    cases hb with
    | zero => exact .zero
    | finite hm hcanonical => exact .finite hm hcanonical
  | @finite m e hm hcanonical =>
    cases hb with
    | zero =>
      rw [add_zero, nearest_of_representable (Denotes.finite hm hcanonical).representable]
      exact .finite hm hcanonical
    | @finite m' e' hm' _ =>
      -- Both are written with the smaller exponent, and added exactly.
      have hvalue : (m * 2 ^ e + m' * 2 ^ e' : ℚ) =
          ((m <<< (e - min e e').toNat + m' <<< (e' - min e e').toNat : ℕ) : ℚ) *
            2 ^ min e e' := by
        rw [Nat.shiftLeft_eq, Nat.shiftLeft_eq, Nat.cast_add, add_mul, Nat.cast_mul, Nat.cast_mul,
          mul_assoc, mul_assoc, ← zpow_eq_natCast_mul (min_le_left e e'),
          ← zpow_eq_natCast_mul (min_le_right e e')]
      rw [hvalue]
      exact denotes_normalize _ _

/-- Canonical parts compare as the numbers do: first by the exponent, then by the mantissa. -/
theorem compare_canonical {m m' : ℕ} {e e' : ℤ} (h : Canonical m e) (h' : Canonical m' e') :
    (compare e e').then (compare m m') = compare (m * 2 ^ e : ℚ) (m' * 2 ^ e') := by
  have hlt : ∀ {m m' : ℕ} {e e' : ℤ}, Canonical m e → Canonical m' e' → e < e' →
      (m * 2 ^ e : ℚ) < m' * 2 ^ e' := by
    intro m m' e e' h h' he
    have hdigits : 2 ^ 52 ≤ m' := h'.digits.resolve_right (by have := h.le; omega)
    calc (m * 2 ^ e : ℚ) < 2 ^ 53 * 2 ^ e := by
          refine mul_lt_mul_of_pos_right ?_ (two_zpow_pos e)
          exact_mod_cast h.lt
      _ = 2 ^ 52 * 2 ^ (e + 1) := by
          rw [zpow_add₀ two_ne_zero]
          ring
      _ ≤ 2 ^ 52 * 2 ^ e' := by
          refine mul_le_mul_of_nonneg_left ?_ (by norm_num)
          exact zpow_le_zpow_right₀ one_le_two (by omega)
      _ ≤ m' * 2 ^ e' := by
          refine mul_le_mul_of_nonneg_right ?_ (two_zpow_pos e').le
          exact_mod_cast hdigits
  rcases lt_trichotomy e e' with he | rfl | he
  · rw [compare_lt_iff_lt.2 he, compare_lt_iff_lt.2 (hlt h h' he)]
    rfl
  · have hsame : ∀ {m m' : ℕ}, m < m' → (m * 2 ^ e : ℚ) < m' * 2 ^ e := fun hm =>
      mul_lt_mul_of_pos_right (Nat.cast_lt.2 hm) (two_zpow_pos e)
    rw [compare_eq_iff_eq.2 rfl]
    rcases lt_trichotomy m m' with hm | rfl | hm
    · rw [compare_lt_iff_lt.2 hm, compare_lt_iff_lt.2 (hsame hm)]
      rfl
    · rw [compare_eq_iff_eq.2 rfl, compare_eq_iff_eq.2 rfl]
      rfl
    · rw [compare_gt_iff_gt.2 hm, compare_gt_iff_gt.2 (hsame hm)]
      rfl
  · rw [compare_gt_iff_gt.2 he, compare_gt_iff_gt.2 (hlt h' h he)]
    rfl

theorem denotes_compare {a b : UnpackedFloat} {v w : ℚ} (ha : Denotes a v) (hb : Denotes b w) :
    a.compare b = some (compare v w) := by
  have hpos : ∀ {m : ℕ} {e : ℤ}, 0 < m → (0 : ℚ) < m * 2 ^ e := fun hm =>
    mul_pos (Nat.cast_pos.2 hm) (two_zpow_pos _)
  cases ha with
  | zero =>
    cases hb with
    | zero => rfl
    | finite hm _ =>
      rw [compare_lt_iff_lt.2 (hpos hm)]
      rfl
  | finite hm hcanonical =>
    cases hb with
    | zero =>
      rw [compare_gt_iff_gt.2 (hpos hm)]
      rfl
    | finite hm' hcanonical' =>
      rw [← compare_canonical hcanonical hcanonical']
      rfl

end ReplicaRing.Binary64
