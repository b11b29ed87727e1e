import Mathlib.Algebra.Order.Floor.Semifield
import Mathlib.Data.Int.Log
import Mathlib.Data.Rat.Floor
import Mathlib.Tactic.FieldSimp
import Mathlib.Tactic.Linarith
import Mathlib.Tactic.NormNum
import Mathlib.Tactic.Positivity
import Mathlib.Tactic.Ring

/-!
# Rounding to the numbers of the double format

The rationals considered here are not negative. The numbers of the format are `m * 2 ^ e` with
`m < 2 ^ 53` and `-1074 ≤ e` (`Representable`); there is no largest one, overflow is a matter of the
operations. A rational is rounded to a multiple of a power of two that depends on its size only
(`grid`), and to the even multiple where two are equally near (`nearest`).

* `nearest_of_representable`: rounding leaves the numbers of the format alone.
* `nearest_mono`: rounding is monotone. So it does not carry a rational down past a number of the
  format (`le_nearest_of_le`).
* `Representable.lt_nearest_mul`: a factor above one makes a number greater, however near to one it
  is, unless the number is too small to have 53 digits.
* `nearest_le`, `le_nearest`: in a number that is a multiple of the least positive one, rounding is
  off by at most one part in `2 ^ 53`.
-/

namespace ReplicaRing.Binary64

/-! ### To the nearest integer -/

/-- The integer nearest to `y`, of two equally near ones the even one. -/
def roundEven (y : ℚ) : ℕ :=
  if y < ⌊y⌋₊ + 1 / 2 then ⌊y⌋₊
  else if y = ⌊y⌋₊ + 1 / 2 then ⌊y⌋₊ + ⌊y⌋₊ % 2
  else ⌊y⌋₊ + 1

theorem roundEven_natCast (n : ℕ) : roundEven n = n := by
  unfold roundEven
  rw [Nat.floor_natCast, if_pos (by linarith)]

theorem roundEven_zero : roundEven 0 = 0 := by
  exact_mod_cast roundEven_natCast 0

theorem floor_le_roundEven (y : ℚ) : ⌊y⌋₊ ≤ roundEven y := by
  unfold roundEven
  split_ifs <;> omega

theorem roundEven_le_floor_succ (y : ℚ) : roundEven y ≤ ⌊y⌋₊ + 1 := by
  unfold roundEven
  split_ifs <;> omega

theorem roundEven_mono {x y : ℚ} (hxy : x ≤ y) : roundEven x ≤ roundEven y := by
  rcases Nat.eq_or_lt_of_le (Nat.floor_le_floor hxy) with hfloor | hfloor
  · -- Both have the same whole part, and the fractional parts are in order.
    unfold roundEven
    rw [hfloor]
    rcases lt_trichotomy y (⌊y⌋₊ + 1 / 2) with hy | hy | hy
    · rw [if_pos (hxy.trans_lt hy), if_pos hy]
    · rw [if_neg hy.not_lt, if_pos hy]
      split_ifs with hbelow hhalf
      · omega
      · omega
      · exact absurd (le_antisymm (hxy.trans_eq hy) (not_lt.1 hbelow)) hhalf
    · rw [if_neg hy.not_gt, if_neg hy.ne']
      split_ifs <;> omega
  · have := roundEven_le_floor_succ x
    have := floor_le_roundEven y
    omega

/-- Rounding to an integer changes a number by at most one half. -/
theorem roundEven_bounds {y : ℚ} (hy : 0 ≤ y) :
    y - 1 / 2 ≤ roundEven y ∧ (roundEven y : ℚ) ≤ y + 1 / 2 := by
  have hle := Nat.floor_le hy
  have hlt := Nat.lt_floor_add_one y
  unfold roundEven
  split_ifs with hbelow hhalf
  · constructor <;> linarith
  · have hmod : ((⌊y⌋₊ % 2 : ℕ) : ℚ) ≤ 1 := by
      exact_mod_cast Nat.le_of_lt_succ (Nat.mod_lt _ Nat.two_pos)
    have hnonneg : (0 : ℚ) ≤ ((⌊y⌋₊ % 2 : ℕ) : ℚ) := Nat.cast_nonneg _
    push_cast at *
    constructor <;> linarith
  · push_cast
    constructor <;> linarith

theorem roundEven_le_of_le {y : ℚ} {n : ℕ} (h : y ≤ n) : roundEven y ≤ n := by
  have hmono := roundEven_mono h
  rwa [roundEven_natCast] at hmono

theorem le_roundEven_of_le {y : ℚ} {n : ℕ} (h : (n : ℚ) ≤ y) : n ≤ roundEven y := by
  have hmono := roundEven_mono h
  rwa [roundEven_natCast] at hmono

/-! ### To a multiple of a power of two -/

/-- The numbers of the format, overflow aside. -/
def Representable (x : ℚ) : Prop :=
  ∃ (m : ℕ) (e : ℤ), m < 2 ^ 53 ∧ -1074 ≤ e ∧ x = m * 2 ^ e

/-- The exponent of the power of two to a multiple of which a number is rounded. -/
def grid (x : ℚ) : ℤ :=
  max (Int.log 2 x - 52) (-1074)

/-- The number of the format that is nearest to `x`. -/
def nearest (x : ℚ) : ℚ :=
  roundEven (x / 2 ^ grid x) * 2 ^ grid x

theorem two_zpow_pos (e : ℤ) : (0 : ℚ) < 2 ^ e :=
  zpow_pos two_pos e

/-- A power of two divided by a smaller one is an integer. -/
theorem zpow_eq_natCast_mul {e f : ℤ} (h : f ≤ e) :
    (2 : ℚ) ^ e = ((2 ^ (e - f).toNat : ℕ) : ℚ) * 2 ^ f := by
  rw [Nat.cast_pow, Nat.cast_ofNat, ← zpow_natCast, Int.toNat_of_nonneg (by omega),
    ← zpow_add₀ two_ne_zero]
  congr 1
  omega

theorem neg_le_grid (x : ℚ) : -1074 ≤ grid x :=
  le_max_right _ _

theorem grid_mono {x y : ℚ} (hx : 0 < x) (hxy : x ≤ y) : grid x ≤ grid y :=
  max_le_max (Int.sub_le_sub_right (Int.log_mono_right hx hxy) 52) (Int.le_refl _)

theorem lt_two_zpow_log (x : ℚ) : x < 2 ^ (Int.log 2 x + 1) := by
  have h := Int.lt_zpow_succ_log_self (R := ℚ) Nat.one_lt_two x
  rwa [Nat.cast_ofNat] at h

theorem two_zpow_log_le {x : ℚ} (hx : 0 < x) : (2 : ℚ) ^ Int.log 2 x ≤ x := by
  have h := Int.zpow_log_le_self (R := ℚ) Nat.one_lt_two hx
  rwa [Nat.cast_ofNat] at h

/-- No number needs more than 53 digits on its grid. -/
theorem div_grid_lt (x : ℚ) : x / 2 ^ grid x < 2 ^ 53 := by
  rw [div_lt_iff₀ (two_zpow_pos _), ← zpow_natCast, ← zpow_add₀ two_ne_zero]
  refine lt_of_lt_of_le (lt_two_zpow_log x) (zpow_le_zpow_right₀ one_le_two ?_)
  have : Int.log 2 x - 52 ≤ grid x := le_max_left _ _
  push_cast
  omega

theorem div_grid_nonneg {x : ℚ} (hx : 0 ≤ x) : 0 ≤ x / 2 ^ grid x :=
  div_nonneg hx (two_zpow_pos _).le

/-- Above the least numbers, the grid is as fine as 53 digits allow. -/
theorem le_div_grid {x : ℚ} (hx : 0 < x) (h : -1074 < grid x) : 2 ^ 52 ≤ x / 2 ^ grid x := by
  have hgrid : grid x = Int.log 2 x - 52 := by
    unfold grid at h ⊢
    omega
  rw [le_div_iff₀ (two_zpow_pos _), ← zpow_natCast, ← zpow_add₀ two_ne_zero, hgrid]
  refine le_trans (le_of_eq ?_) (two_zpow_log_le hx)
  congr 1
  push_cast
  omega

theorem roundEven_div_grid_le (x : ℚ) : roundEven (x / 2 ^ grid x) ≤ 2 ^ 53 := by
  refine roundEven_le_of_le ?_
  push_cast
  exact (div_grid_lt x).le

theorem nearest_nonneg (x : ℚ) : 0 ≤ nearest x :=
  mul_nonneg (Nat.cast_nonneg _) (two_zpow_pos _).le

theorem nearest_zero : nearest 0 = 0 := by
  unfold nearest
  rw [zero_div, roundEven_zero, Nat.cast_zero, zero_mul]

/-- A number of the format lies on its own grid. -/
theorem Representable.div_grid {x : ℚ} (h : Representable x) : ∃ n : ℕ, x / 2 ^ grid x = n := by
  obtain ⟨m, e, hm, he, rfl⟩ := h
  rcases Nat.eq_zero_or_pos m with rfl | hpos
  · exact ⟨0, by simp⟩
  · have hx : (0 : ℚ) < m * 2 ^ e := mul_pos (Nat.cast_pos.2 hpos) (two_zpow_pos e)
    have hlog : Int.log 2 ((m : ℚ) * 2 ^ e) < 53 + e := by
      refine (Int.lt_zpow_iff_log_lt Nat.one_lt_two hx).1 ?_
      rw [Nat.cast_ofNat, zpow_add₀ two_ne_zero]
      refine mul_lt_mul_of_pos_right ?_ (two_zpow_pos e)
      exact_mod_cast hm
    have hgrid : grid (m * 2 ^ e) ≤ e := max_le (by omega) he
    refine ⟨m * 2 ^ (e - grid (m * 2 ^ e)).toNat, ?_⟩
    rw [div_eq_iff (two_zpow_pos _).ne', Nat.cast_mul, mul_assoc, ← zpow_eq_natCast_mul hgrid]

theorem nearest_of_representable {x : ℚ} (h : Representable x) : nearest x = x := by
  obtain ⟨n, hn⟩ := h.div_grid
  unfold nearest
  rw [hn, roundEven_natCast, ← hn, div_mul_cancel₀ _ (two_zpow_pos _).ne']

theorem nearest_mono {x y : ℚ} (hx : 0 ≤ x) (hxy : x ≤ y) : nearest x ≤ nearest y := by
  rcases hx.eq_or_lt with rfl | hpos
  · rw [nearest_zero]
    exact nearest_nonneg y
  rcases lt_or_ge (grid x) (grid y) with hlt | hge
  · -- A power of two lies between the two, and neither is carried past it.
    have hy : -1074 < grid y := lt_of_le_of_lt (neg_le_grid x) hlt
    have hbelow : x / 2 ^ grid x ≤ ((2 ^ (52 + grid y - grid x).toNat : ℕ) : ℚ) := by
      rw [div_le_iff₀ (two_zpow_pos _), ← zpow_eq_natCast_mul (by omega)]
      refine (lt_two_zpow_log x).le.trans (zpow_le_zpow_right₀ one_le_two ?_)
      have : Int.log 2 x - 52 ≤ grid x := le_max_left _ _
      omega
    have habove := le_div_grid (hpos.trans_le hxy) hy
    calc nearest x ≤ ((2 ^ (52 + grid y - grid x).toNat : ℕ) : ℚ) * 2 ^ grid x := by
          refine mul_le_mul_of_nonneg_right ?_ (two_zpow_pos _).le
          exact_mod_cast roundEven_le_of_le hbelow
      _ = ((2 ^ 52 : ℕ) : ℚ) * 2 ^ grid y := by
          rw [← zpow_eq_natCast_mul (by omega), zpow_add₀ two_ne_zero, Nat.cast_pow]
          rfl
      _ ≤ nearest y := by
          refine mul_le_mul_of_nonneg_right ?_ (two_zpow_pos _).le
          exact_mod_cast le_roundEven_of_le (by exact_mod_cast habove)
  · have heq : grid x = grid y := Int.le_antisymm (grid_mono hpos hxy) hge
    unfold nearest
    rw [← heq]
    refine mul_le_mul_of_nonneg_right ?_ (two_zpow_pos _).le
    exact_mod_cast roundEven_mono (div_le_div_of_nonneg_right hxy (two_zpow_pos _).le)

/-- Rounding carries no number down past one of the format. -/
theorem le_nearest_of_le {x c : ℚ} (hc : Representable c) (hc₀ : 0 ≤ c) (h : c ≤ x) :
    c ≤ nearest x :=
  (nearest_of_representable hc).symm.trans_le (nearest_mono hc₀ h)

/-! ### Products with a factor above one -/

/-- A number with the 54-digit mantissa `2 ^ 53` needs only one digit. -/
theorem representable_of_le {n : ℕ} {e : ℤ} (hn : n ≤ 2 ^ 53) (he : -1074 ≤ e) :
    Representable (n * 2 ^ e) := by
  rcases hn.eq_or_lt with rfl | hlt
  · refine ⟨2 ^ 52, e + 1, by norm_num, by omega, ?_⟩
    rw [zpow_add₀ two_ne_zero]
    push_cast
    ring
  · exact ⟨n, e, hlt, he, rfl⟩

/-- One step up on its grid leads from a number of the format to another one. -/
theorem Representable.add_grid {x : ℚ} (h : Representable x) : Representable (x + 2 ^ grid x) := by
  obtain ⟨n, hn⟩ := h.div_grid
  have hlt : n < 2 ^ 53 := by
    have hdigits := div_grid_lt x
    rw [hn] at hdigits
    exact_mod_cast hdigits
  have hx : x + 2 ^ grid x = ((n + 1 : ℕ) : ℚ) * 2 ^ grid x := by
    rw [Nat.cast_add, Nat.cast_one, add_mul, one_mul, ← hn, div_mul_cancel₀ _ (two_zpow_pos _).ne']
  rw [hx]
  exact representable_of_le hlt (neg_le_grid x)

/-- The least number of the format above one differs from it in the last of 53 digits. -/
theorem Representable.one_add_le {x : ℚ} (h : Representable x) (hone : 1 < x) :
    1 + 2 ^ (-52 : ℤ) ≤ x := by
  obtain ⟨n, hn⟩ := h.div_grid
  have hlog : 0 ≤ Int.log 2 x :=
    (Int.log_one_right 2).symm.trans_le (Int.log_mono_right one_pos hone.le)
  have hgrid : -52 ≤ grid x := le_max_of_le_left (by omega)
  -- Counted in steps of `2 ^ -52`, both are integers.
  have hx : x = ((n * 2 ^ (grid x - -52).toNat : ℕ) : ℚ) * 2 ^ (-52 : ℤ) := by
    rw [Nat.cast_mul, mul_assoc, ← zpow_eq_natCast_mul hgrid, ← hn,
      div_mul_cancel₀ _ (two_zpow_pos _).ne']
  generalize n * 2 ^ (grid x - -52).toNat = steps at hx
  have hsteps : 2 ^ 52 < steps := by
    rw [hx, zpow_neg, lt_mul_inv_iff₀ (two_zpow_pos 52), one_mul] at hone
    exact_mod_cast hone
  calc (1 + 2 ^ (-52 : ℤ) : ℚ) = ((2 ^ 52 + 1 : ℕ) : ℚ) * 2 ^ (-52 : ℤ) := by norm_num [zpow_neg]
    _ ≤ steps * 2 ^ (-52 : ℤ) :=
        mul_le_mul_of_nonneg_right (Nat.cast_le.2 hsteps) (two_zpow_pos _).le
    _ = x := hx.symm

/-- The factor adds at least one step on the grid, and that much is not lost in rounding. -/
theorem Representable.lt_nearest_mul {v w : ℚ} (hv : Representable v) (hw : Representable w)
    (hnormal : 2 ^ (-1022 : ℤ) ≤ v) (hone : 1 < w) : v < nearest (v * w) := by
  have hpos : 0 < v := (two_zpow_pos _).trans_le hnormal
  have hlog : -1022 ≤ Int.log 2 v := by
    refine (Int.zpow_le_iff_le_log Nat.one_lt_two hpos).1 ?_
    rwa [Nat.cast_ofNat]
  have hgrid : grid v = Int.log 2 v + -52 := max_eq_left (by omega)
  have hstep : (2 : ℚ) ^ grid v ≤ v * 2 ^ (-52 : ℤ) := by
    rw [hgrid, zpow_add₀ two_ne_zero]
    exact mul_le_mul_of_nonneg_right (two_zpow_log_le hpos) (two_zpow_pos _).le
  have hproduct : v + 2 ^ grid v ≤ v * w := by
    calc v + 2 ^ grid v ≤ v + v * 2 ^ (-52 : ℤ) := by gcongr
      _ = v * (1 + 2 ^ (-52 : ℤ)) := by ring
      _ ≤ v * w := mul_le_mul_of_nonneg_left (hw.one_add_le hone) hpos.le
  calc v < v + 2 ^ grid v := lt_add_of_pos_right v (two_zpow_pos _)
    _ ≤ nearest (v * w) :=
        le_nearest_of_le hv.add_grid (add_pos hpos (two_zpow_pos _)).le hproduct

/-! ### How far rounding is off -/

/-- Multiples of the least positive number of the format. -/
def Whole (x : ℚ) : Prop :=
  ∃ n : ℕ, x = n * 2 ^ (-1074 : ℤ)

theorem whole_of_representable {x : ℚ} (h : Representable x) : Whole x := by
  obtain ⟨m, e, -, he, rfl⟩ := h
  exact ⟨m * 2 ^ (e + 1074).toNat, by
    rw [Nat.cast_mul, mul_assoc, zpow_eq_natCast_mul he, Int.sub_neg]⟩

theorem Whole.add {x y : ℚ} (hx : Whole x) (hy : Whole y) : Whole (x + y) := by
  obtain ⟨m, rfl⟩ := hx
  obtain ⟨n, rfl⟩ := hy
  exact ⟨m + n, by rw [Nat.cast_add, add_mul]⟩

theorem Whole.natCast_mul {x : ℚ} (hx : Whole x) (n : ℕ) : Whole (n * x) := by
  obtain ⟨m, rfl⟩ := hx
  exact ⟨n * m, by rw [Nat.cast_mul, mul_assoc]⟩

theorem whole_natCast (n : ℕ) : Whole n :=
  ⟨n * 2 ^ 1074, by
    rw [Nat.cast_mul, mul_assoc, Nat.cast_pow, Nat.cast_ofNat, zpow_neg, ← zpow_natCast]
    exact (mul_one _).symm.trans
      (congrArg _ (mul_inv_cancel₀ (two_zpow_pos _).ne').symm)⟩

/-- Rounding does not make a fraction out of a natural number. -/
theorem exists_nearest_natCast (n : ℕ) : ∃ m : ℕ, nearest n = m := by
  rcases le_or_gt 0 (grid n) with hgrid | hgrid
  · refine ⟨roundEven (n / 2 ^ grid n) * 2 ^ (grid n).toNat, ?_⟩
    unfold nearest
    rw [Nat.cast_mul, Nat.cast_pow, Nat.cast_ofNat, ← zpow_natCast, Int.toNat_of_nonneg hgrid]
  · -- A number with a grid finer than the whole numbers has no more digits than the format.
    refine ⟨n, ?_⟩
    rcases Nat.eq_zero_or_pos n with rfl | hpos
    · rw [Nat.cast_zero, nearest_zero]
    have hlog : Int.log 2 (n : ℚ) < 53 := by
      unfold grid at hgrid
      omega
    have hlt : (n : ℚ) < 2 ^ (53 : ℤ) :=
      (Int.lt_zpow_iff_log_lt Nat.one_lt_two (Nat.cast_pos.2 hpos)).2 hlog
    exact nearest_of_representable ⟨n, 0, by exact_mod_cast hlt, by norm_num, by simp⟩

/-- The largest part of a number that rounding adds to it or takes from it. -/
def unit : ℚ :=
  1 / 2 ^ 53

/-- A number that rounding changes has at least 53 digits, and changes by half of the last one at
most. -/
theorem nearest_eq_or_exists {x : ℚ} (hx : 0 ≤ x) (hwhole : Whole x) :
    nearest x = x ∨ ∃ step : ℚ, |nearest x - x| ≤ step / 2 ∧ 2 ^ 52 * step ≤ x ∧
      2 ^ 52 * step ≤ nearest x := by
  rcases (neg_le_grid x).eq_or_lt with hgrid | hgrid
  · -- On the finest grid there is nothing to round.
    left
    obtain ⟨n, hn⟩ := hwhole
    have hdigits : x / 2 ^ (-1074 : ℤ) = n := by
      rw [hn, mul_div_cancel_right₀ _ (two_zpow_pos _).ne']
    unfold nearest
    rw [← hgrid, hdigits, roundEven_natCast, ← hn]
  rcases hx.eq_or_lt with rfl | hpos
  · exact Or.inl nearest_zero
  right
  have hdigits := le_div_grid hpos hgrid
  have hrounded : ((2 ^ 52 : ℕ) : ℚ) ≤ roundEven (x / 2 ^ grid x) := by
    exact_mod_cast le_roundEven_of_le (by exact_mod_cast hdigits)
  have hx' : x = x / 2 ^ grid x * 2 ^ grid x := (div_mul_cancel₀ _ (two_zpow_pos _).ne').symm
  have hstep := two_zpow_pos (grid x)
  obtain ⟨hlow, hhigh⟩ := roundEven_bounds (div_grid_nonneg hx)
  refine ⟨2 ^ grid x, ?_, ?_, ?_⟩
  · have herror : |(roundEven (x / 2 ^ grid x) : ℚ) - x / 2 ^ grid x| ≤ 1 / 2 := by
      rw [abs_le]
      constructor <;> linarith
    calc |nearest x - x|
        = |(roundEven (x / 2 ^ grid x) : ℚ) - x / 2 ^ grid x| * 2 ^ grid x := by
          rw [← abs_of_pos hstep, ← abs_mul, sub_mul, abs_of_pos hstep, ← hx']
          rfl
      _ ≤ 1 / 2 * 2 ^ grid x := mul_le_mul_of_nonneg_right herror hstep.le
      _ = 2 ^ grid x / 2 := by ring
  · rwa [le_div_iff₀ hstep] at hdigits
  · unfold nearest
    refine mul_le_mul_of_nonneg_right ?_ hstep.le
    exact_mod_cast hrounded

theorem nearest_le {x : ℚ} (hx : 0 ≤ x) (hwhole : Whole x) : nearest x ≤ x * (1 + unit) := by
  unfold unit
  rcases nearest_eq_or_exists hx hwhole with heq | ⟨step, herror, hstep, -⟩
  · rw [heq]
    linarith
  · have := (abs_le.1 herror).2
    linarith

theorem le_nearest {x : ℚ} (hx : 0 ≤ x) (hwhole : Whole x) : x ≤ nearest x * (1 + unit) := by
  unfold unit
  rcases nearest_eq_or_exists hx hwhole with heq | ⟨step, herror, -, hstep⟩
  · rw [heq]
    linarith
  · have := (abs_le.1 herror).1
    linarith

end ReplicaRing.Binary64
