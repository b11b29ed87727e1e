import ReplicaRing.Decimal.Binary64
import ReplicaRing.Proofs.Binary64.Operations

/-!
# The numbers that doubles hold

A double that is neither negative nor infinite nor no number at all holds a rational (`Holds`). An
operation on such doubles gives the one that holds the number nearest to the exact result, or
infinity if that number is not below `2 ^ 1024` (`Rounds`). Natural numbers are converted in the
same way (`rounds_ofNat`), and the doubles that can be weights are those that hold positive numbers
(`isPositive_iff`).

Comparing doubles that hold numbers compares the numbers. All other doubles but the one that is no
number have their place in one order, too (`lt_iff_rank?`). Those above zero hold a positive number
or are infinite (`zero_lt_iff`). A factor that is not below one keeps them in order and makes none
smaller (`mul_le_mul_of_one_le`, `le_mul_of_one_le`); one that is above one makes every number of 53
digits greater (`Holds.lt_mul`).
-/

namespace ReplicaRing.Binary64

open Float.Model (UnpackedFloat Format)
open Float.Model.UnpackedFloat

/-- A double holds a number that is not negative. -/
def Holds (x : Float) (v : ℚ) : Prop :=
  Denotes (parts x) v

/-- A double is the positive infinity. -/
def Infinite (x : Float) : Prop :=
  parts x = .infinity .positive

/-- A double comes out of rounding a number. -/
def Rounds (x : Float) (v : ℚ) : Prop :=
  (nearest v < 2 ^ 1024 → Holds x (nearest v)) ∧ (2 ^ 1024 ≤ nearest v → Infinite x)

variable {x y : Float} {v w : ℚ}

/-- Parts in canonical form overflow from the exponent 972 on. -/
theorem Canonical.lt_iff {m : ℕ} {e : ℤ} (h : Canonical m e) :
    (m * 2 ^ e : ℚ) < 2 ^ 1024 ↔ e ≤ 971 := by
  have hpower : ∀ (a : ℕ) (b : ℤ), a + b = 1024 → (2 : ℚ) ^ a * 2 ^ b = 2 ^ 1024 := by
    intro a b hab
    rw [← zpow_natCast, ← zpow_add₀ two_ne_zero, hab, ← zpow_natCast]
    rfl
  constructor
  · intro hlt
    by_contra hmax
    have hdigits : 2 ^ 52 ≤ m := h.digits.resolve_right (by omega)
    refine absurd hlt (not_lt.2 ?_)
    calc (2 : ℚ) ^ 1024 = 2 ^ 52 * 2 ^ (972 : ℤ) := (hpower 52 972 rfl).symm
      _ ≤ m * 2 ^ e := by
          refine mul_le_mul ?_ (zpow_le_zpow_right₀ one_le_two (by omega)) (two_zpow_pos _).le
            (Nat.cast_nonneg _)
          exact_mod_cast hdigits
  · intro hmax
    calc (m * 2 ^ e : ℚ) < 2 ^ 53 * 2 ^ (971 : ℤ) := by
          refine mul_lt_mul ?_ (zpow_le_zpow_right₀ one_le_two hmax) (two_zpow_pos e) (by norm_num)
          exact_mod_cast h.lt
      _ = 2 ^ 1024 := hpower 53 971 rfl

namespace Holds

theorem nonneg (h : Holds x v) : 0 ≤ v :=
  Denotes.nonneg h

theorem representable (h : Holds x v) : Representable v :=
  Denotes.representable h

end Holds

/-- Parts are packed into a double that holds their number, or overflow. -/
theorem rounds_of_denotes {u : UnpackedFloat} (h : Denotes u (nearest v)) :
    Rounds (.ofModel (Float.Model.pack u)) v := by
  unfold Rounds Holds Infinite
  rw [parts_ofModel_pack]
  generalize nearest v = w at h ⊢
  cases h with
  | zero =>
    rw [unpack_pack_zero]
    exact ⟨fun _ => .zero, fun hover => absurd hover (not_le.2 (by positivity))⟩
  | finite hm hcanonical =>
    rw [unpack_pack_finite _ hm hcanonical, hcanonical.lt_iff]
    refine ⟨fun hmax => ?_, fun hover => ?_⟩
    · rw [if_pos hmax]
      exact .finite hm hcanonical
    · rw [if_neg fun hmax => not_lt.2 hover (hcanonical.lt_iff.2 hmax)]

/-! ### Arithmetic -/

theorem Holds.mul (hx : Holds x v) (hy : Holds y w) : Rounds (x * y) (v * w) :=
  rounds_of_denotes (denotes_mul hx hy)

theorem Holds.div (hx : Holds x v) (hy : Holds y w) (hw : 0 < w) : Rounds (x / y) (v / w) :=
  rounds_of_denotes (denotes_div hx hy hw)

theorem Holds.add (hx : Holds x v) (hy : Holds y w) : Rounds (x + y) (v + w) :=
  rounds_of_denotes (denotes_add hx hy)

theorem Rounds.holds_or_infinite (h : Rounds x v) :
    nearest v < 2 ^ 1024 ∧ Holds x (nearest v) ∨ Infinite x := by
  rcases lt_or_ge (nearest v) (2 ^ 1024) with hlt | hge
  · exact Or.inl ⟨hlt, h.1 hlt⟩
  · exact Or.inr (h.2 hge)

/-- A double that holds a number divided by infinity is zero. -/
theorem Holds.div_infinite (hx : Holds x v) (hy : Infinite y) : Holds (x / y) 0 := by
  have hzero : UnpackedFloat.div Format.binary64 (parts x) (parts y) = .zero .positive := by
    unfold Holds at hx
    unfold Infinite at hy
    rw [hy]
    generalize parts x = u at hx
    cases hx <;> rfl
  show Denotes (unpack Format.binary64 (pack Format.binary64
    (UnpackedFloat.div Format.binary64 (parts x) (parts y)))) 0
  rw [hzero, unpack_pack_zero]
  exact .zero

theorem infinite_of_eq {u : UnpackedFloat} (h : u = .infinity .positive) :
    Infinite (.ofModel (Float.Model.pack u)) := by
  unfold Infinite
  rw [parts_ofModel_pack, h, unpack_pack_infinity]

theorem Infinite.add (hx : Infinite x) (hy : Holds y w) : Infinite (x + y) := by
  refine infinite_of_eq ?_
  show UnpackedFloat.add Format.binary64 (parts x) (parts y) = .infinity .positive
  unfold Infinite at hx
  unfold Holds at hy
  rw [hx]
  generalize parts y = u at hy
  cases hy <;> rfl

theorem Infinite.mul (hx : Infinite x) (hy : Holds y w) (hw : 0 < w) : Infinite (x * y) := by
  refine infinite_of_eq ?_
  show UnpackedFloat.mul Format.binary64 (parts x) (parts y) = .infinity .positive
  unfold Infinite at hx
  unfold Holds at hy
  rw [hx]
  generalize parts y = u at hy
  cases hy with
  | zero => exact absurd hw (lt_irrefl 0)
  | finite _ _ => rfl

/-! ### Comparisons -/

theorem lt_iff_compare : x < y ↔ (parts x).compare (parts y) = some .lt := by
  show decide (x.toModel < y.toModel) = true ↔ _
  rw [decide_eq_true_iff]
  show ((parts x).compare (parts y) == some .lt) = true ↔ _
  rw [beq_iff_eq]

theorem le_iff_compare :
    x ≤ y ↔ ∃ ordering, (parts x).compare (parts y) = some ordering ∧ ordering.isLE := by
  show decide (x.toModel ≤ y.toModel) = true ↔ _
  rw [decide_eq_true_iff]
  show ((parts x).compare (parts y)).any (·.isLE) = true ↔ _
  rw [Option.any_eq_true]

theorem Holds.lt_iff (hx : Holds x v) (hy : Holds y w) : x < y ↔ v < w := by
  rw [lt_iff_compare, denotes_compare hx hy, Option.some_inj, compare_lt_iff_lt]

theorem Holds.le_iff (hx : Holds x v) (hy : Holds y w) : x ≤ y ↔ v ≤ w := by
  rw [le_iff_compare, denotes_compare hx hy]
  simp only [Option.some_inj, exists_eq_left']
  rw [Ordering.isLE_iff_ne_gt]
  exact compare_le_iff_le

theorem Holds.lt_infinite (hx : Holds x v) (hy : Infinite y) : x < y := by
  rw [lt_iff_compare]
  unfold Holds at hx
  unfold Infinite at hy
  rw [hy]
  generalize parts x = u at hx
  cases hx <;> rfl

theorem Holds.le_infinite (hx : Holds x v) (hy : Infinite y) : x ≤ y :=
  le_iff_compare.2 ⟨.lt, lt_iff_compare.1 (hx.lt_infinite hy), rfl⟩

/-! ### The order of all doubles -/

/-- The place of parts in the order of the numbers that they stand for; only what is no number has
none. -/
def rank? : UnpackedFloat → Option (ℤ ×ₗ ℤ ×ₗ ℤ)
  | .notANumber => none
  | .infinity .negative => some (toLex (-2, toLex (0, 0)))
  | .finite .negative m e _ => some (toLex (-1, toLex (-e, -m)))
  | .zero _ => some (toLex (0, toLex (0, 0)))
  | .finite .positive m e _ => some (toLex (1, toLex (e, m)))
  | .infinity .positive => some (toLex (2, toLex (0, 0)))

theorem compare_toLex (a b c d : ℤ) :
    compare (toLex (a, b)) (toLex (c, d)) = (compare a c).then (compare b d) := by
  rw [Prod.Lex.compare_def]
  rfl

theorem compare_eq_compare_rank? (a b : UnpackedFloat) :
    a.compare b = (rank? a).bind fun i => (rank? b).map fun j => compare i j := by
  have hcast (m n : ℕ) : compare (m : ℤ) n = compare m n := by
    rw [← cmp_eq_compare, ← cmp_eq_compare, Nat.strictMono_cast.cmp_map_eq]
  have hneg (i j : ℤ) : compare (-i) (-j) = (compare i j).swap := by
    have hanti : StrictAnti fun i : ℤ => -i := fun _ _ => neg_lt_neg
    rw [← cmp_eq_compare, ← cmp_eq_compare, hanti.cmp_map_eq, cmp_swap]
  -- Only the parts of two finite numbers of one sign have to be looked at.
  rcases a with s | _ | s | ⟨s, m, e, hm⟩ <;> rcases b with t | _ | t | ⟨t, n, f, hn⟩ <;>
    first
    | rfl
    | cases s <;> rfl
    | cases t <;> rfl
    | cases s <;> cases t <;> try rfl
  case finite.finite.negative.negative =>
    show some ((compare e f).then (compare m n)).swap =
      some ((compare (-1 : ℤ) (-1)).then (compare (toLex (-e, -(m : ℤ))) (toLex (-f, -(n : ℤ)))))
    rw [compare_toLex, hneg e f, hneg m n, hcast, Ordering.swap_then]
    rfl
  case finite.finite.positive.positive =>
    show some ((compare e f).then (compare m n)) =
      some ((compare (1 : ℤ) 1).then (compare (toLex (e, (m : ℤ))) (toLex (f, (n : ℤ)))))
    rw [compare_toLex, hcast]
    rfl

theorem lt_iff_rank? : x < y ↔ ∃ i ∈ rank? (parts x), ∃ j ∈ rank? (parts y), i < j := by
  rw [lt_iff_compare, compare_eq_compare_rank?, Option.bind_eq_some_iff]
  simp only [Option.map_eq_some_iff, compare_lt_iff_lt, Option.mem_def]

theorem le_iff_rank? : x ≤ y ↔ ∃ i ∈ rank? (parts x), ∃ j ∈ rank? (parts y), i ≤ j := by
  rw [le_iff_compare, compare_eq_compare_rank?]
  simp only [Option.bind_eq_some_iff, Option.map_eq_some_iff, Option.mem_def]
  constructor
  · rintro ⟨_, ⟨i, hi, j, hj, rfl⟩, hle⟩
    exact ⟨i, hi, j, hj, compare_le_iff_le.1 (Ordering.isLE_iff_ne_gt.1 hle)⟩
  · rintro ⟨i, hi, j, hj, hle⟩
    exact ⟨_, ⟨i, hi, j, hj, rfl⟩, Ordering.isLE_iff_ne_gt.2 (compare_le_iff_le.2 hle)⟩

/-- Whatever is less than a double is less than all above it, infinite or not. -/
theorem lt_of_le_lt {z : Float} (hxy : x ≤ y) (hyz : y < z) : x < z := by
  obtain ⟨i, hi, j, hj, hij⟩ := le_iff_rank?.1 hxy
  obtain ⟨j', hj', k, hk, hjk⟩ := lt_iff_rank?.1 hyz
  obtain rfl := Option.some.inj (hj.symm.trans hj')
  exact lt_iff_rank?.2 ⟨i, hi, k, hk, hij.trans_lt hjk⟩

theorem le_of_le_le {z : Float} (hxy : x ≤ y) (hyz : y ≤ z) : x ≤ z := by
  obtain ⟨i, hi, j, hj, hij⟩ := le_iff_rank?.1 hxy
  obtain ⟨j', hj', k, hk, hjk⟩ := le_iff_rank?.1 hyz
  obtain rfl := Option.some.inj (hj.symm.trans hj')
  exact le_iff_rank?.2 ⟨i, hi, k, hk, hij.trans hjk⟩

theorem lt_of_lt_le {z : Float} (hxy : x < y) (hyz : y ≤ z) : x < z := by
  obtain ⟨i, hi, j, hj, hij⟩ := lt_iff_rank?.1 hxy
  obtain ⟨j', hj', k, hk, hjk⟩ := le_iff_rank?.1 hyz
  obtain rfl := Option.some.inj (hj.symm.trans hj')
  exact lt_iff_rank?.2 ⟨i, hi, k, hk, hij.trans_le hjk⟩

theorem not_lt_self (x : Float) : ¬x < x := by
  intro h
  obtain ⟨i, hi, j, hj, hij⟩ := lt_iff_rank?.1 h
  obtain rfl := Option.some.inj (hi.symm.trans hj)
  exact lt_irrefl i hij

theorem Infinite.not_lt (hx : Infinite x) : ¬x < y := by
  unfold Infinite at hx
  rw [lt_iff_compare, hx]
  rcases parts y with (_ | _) | _ | _ | _ <;> exact fun h => nomatch h

theorem Infinite.le (hx : Infinite x) (hy : Infinite y) : x ≤ y := by
  unfold Infinite at hx hy
  rw [le_iff_rank?, hx, hy]
  exact ⟨_, rfl, _, rfl, le_refl _⟩

/-- Rounding keeps the order of the numbers. -/
theorem Rounds.le (hx : Rounds x v) (hy : Rounds y w) (h : nearest v ≤ nearest w) : x ≤ y := by
  rcases hy.holds_or_infinite with ⟨hlt, hy⟩ | hy
  · exact ((hx.1 (h.trans_lt hlt)).le_iff hy).2 h
  · rcases hx.holds_or_infinite with ⟨-, hx⟩ | hx
    · exact hx.le_infinite hy
    · exact hx.le hy

/-! ### Doubles above zero -/

/-- The doubles above zero are those that hold a positive number, and infinity. -/
theorem zero_lt_iff : 0.0 < x ↔ (∃ v, 0 < v ∧ Holds x v) ∨ Infinite x := by
  rw [lt_iff_compare, show parts 0.0 = .zero .positive from rfl]
  unfold Holds Infinite
  generalize hparts : parts x = u
  constructor
  · intro hlt
    cases u with
    | notANumber => cases hlt
    | zero => cases hlt
    | infinity s =>
      cases s with
      | negative => cases hlt
      | positive => exact Or.inr rfl
    | finite s m e hm =>
      cases s with
      | negative => cases hlt
      | positive =>
        exact Or.inl ⟨m * 2 ^ e, mul_pos (Nat.cast_pos.2 hm) (two_zpow_pos e),
          .finite hm (canonical_of_parts hparts).1⟩
  · rintro (⟨v, hpos, hv⟩ | rfl)
    · cases hv with
      | zero => exact absurd hpos (lt_irrefl 0)
      | finite _ _ => rfl
    · rfl

theorem le_infinite_of_pos (hx : 0.0 < x) (hy : Infinite y) : x ≤ y := by
  rcases zero_lt_iff.1 hx with ⟨v, -, hx⟩ | hx
  · exact hx.le_infinite hy
  · exact hx.le hy

theorem le_of_not_lt_of_pos (hx : 0.0 < x) (hy : 0.0 < y) (h : ¬x < y) : y ≤ x := by
  obtain ⟨-, -, i, hi, -⟩ := lt_iff_rank?.1 hx
  obtain ⟨-, -, j, hj, -⟩ := lt_iff_rank?.1 hy
  exact le_iff_rank?.2 ⟨j, hj, i, hi, not_lt.1 fun hij => h (lt_iff_rank?.2 ⟨i, hi, j, hj, hij⟩)⟩

theorem le_self_of_pos (hx : 0.0 < x) : x ≤ x :=
  le_of_not_lt_of_pos hx hx (not_lt_self x)

/-- Nothing but infinity is above infinity. -/
theorem Infinite.of_le (hx : Infinite x) (hxy : x ≤ y) : Infinite y := by
  have hpos : 0.0 < y := lt_of_lt_le (zero_lt_iff.2 (Or.inr hx)) hxy
  rcases zero_lt_iff.1 hpos with ⟨v, -, hy⟩ | hy
  · exact absurd (lt_of_lt_le (hy.lt_infinite hx) hxy) (not_lt_self y)
  · exact hy

/-- A product with a number that is not below one is not below the other factor. -/
theorem le_mul_of_one_le (hx : 0.0 < x) (hy : Holds y w) (hw : 1 ≤ w) : x ≤ x * y := by
  rcases zero_lt_iff.1 hx with ⟨v, -, hx⟩ | hx
  · have hle : v ≤ nearest (v * w) :=
      le_nearest_of_le hx.representable hx.nonneg (le_mul_of_one_le_right hx.nonneg hw)
    rcases (hx.mul hy).holds_or_infinite with ⟨-, hholds⟩ | hinfinite
    · exact (hx.le_iff hholds).2 hle
    · exact hx.le_infinite hinfinite
  · exact hx.le (hx.mul hy (one_pos.trans_le hw))

theorem mul_pos_of_one_le (hx : 0.0 < x) (hy : Holds y w) (hw : 1 ≤ w) : 0.0 < x * y :=
  lt_of_lt_le hx (le_mul_of_one_le hx hy hw)

/-- Products with one and the same number that is not below one keep the order. -/
theorem mul_le_mul_of_one_le {z : Float} (hx : 0.0 < x) (hxy : x ≤ y) (hz : Holds z w)
    (hw : 1 ≤ w) : x * z ≤ y * z := by
  rcases zero_lt_iff.1 (lt_of_lt_le hx hxy) with ⟨v', -, hy⟩ | hinfinite
  · rcases zero_lt_iff.1 hx with ⟨v, -, hv⟩ | hinfinite
    · have hle : v * w ≤ v' * w := mul_le_mul_of_nonneg_right ((hv.le_iff hy).1 hxy) hz.nonneg
      exact (hv.mul hz).le (hy.mul hz) (nearest_mono (mul_nonneg hv.nonneg hz.nonneg) hle)
    · exact absurd (hy.lt_infinite (hinfinite.of_le hxy)) (not_lt_self y)
  · exact le_infinite_of_pos (mul_pos_of_one_le hx hz hw)
      (hinfinite.mul hz (one_pos.trans_le hw))

/-- A factor above one makes every number from `2 ^ -1022` on greater. -/
theorem Holds.lt_mul (hx : Holds x v) (hy : Holds y w) (hnormal : 2 ^ (-1022 : ℤ) ≤ v)
    (hw : 1 < w) : x < x * y := by
  rcases (hx.mul hy).holds_or_infinite with ⟨-, hholds⟩ | hinfinite
  · exact (hx.lt_iff hholds).2 (hx.representable.lt_nearest_mul hy.representable hnormal hw)
  · exact hx.lt_infinite hinfinite

/-- The least double that has 53 digits. -/
def leastNormal : Float :=
  ofBits 0x0010000000000000

example : leastNormal = 2.2250738585072014e-308 := by decide +kernel

theorem holds_leastNormal : Holds leastNormal (2 ^ (-1022 : ℤ)) := by
  have hparts : parts leastNormal = .finite .positive (2 ^ 52) (-1074) (by norm_num) := rfl
  have hvalue : (2 : ℚ) ^ (-1022 : ℤ) = ((2 ^ 52 : ℕ) : ℚ) * 2 ^ (-1074 : ℤ) := by
    rw [Nat.cast_pow, Nat.cast_ofNat, ← zpow_natCast, ← zpow_add₀ two_ne_zero]
    rfl
  unfold Holds
  rw [hparts, hvalue]
  exact .finite _ ⟨by norm_num, by norm_num, Or.inl (Nat.le_refl _)⟩

/-! ### Weights -/

theorem Holds.isFinite (hx : Holds x v) : x.isFinite = true := by
  show (parts x).isFinite = true
  unfold Holds at hx
  generalize parts x = u at hx
  cases hx <;> rfl

theorem Infinite.not_isFinite (hx : Infinite x) : x.isFinite = false := by
  show (parts x).isFinite = false
  unfold Infinite at hx
  rw [hx]
  rfl

theorem exists_holds_of_pos (hfinite : x.isFinite = true) (hpos : 0.0 < x) :
    ∃ v, 0 < v ∧ Holds x v := by
  rcases zero_lt_iff.1 hpos with hholds | hinfinite
  · exact hholds
  · rw [hinfinite.not_isFinite] at hfinite
    cases hfinite

theorem holds_zero : Holds 0.0 0 :=
  Denotes.zero

theorem holds_one : Holds 1.0 1 := by
  have hparts : parts 1.0 = .finite .positive (2 ^ 52) (-52) (by norm_num) := rfl
  have hone : (1 : ℚ) = ((2 ^ 52 : ℕ) : ℚ) * 2 ^ (-52 : ℤ) := by norm_num [zpow_neg]
  unfold Holds
  rw [hparts, hone]
  exact .finite _ ⟨by norm_num, by norm_num, Or.inl (Nat.le_refl _)⟩

/-- A number of at most 53 digits is converted as it is. -/
theorem holds_toFloat {n : ℕ} (hn : n < 2 ^ 53) : Holds n.toUInt64.toFloat n := by
  have hword : n.toUInt64.toNat = n := by
    rw [Nat.toUInt64, UInt64.toNat_ofNat', Nat.mod_eq_of_lt]
    exact hn.trans (by norm_num)
  have hdenotes := denotes_normalize n.toUInt64.toNat 0
  rw [zpow_zero, mul_one, hword] at hdenotes
  have hrounds : Rounds n.toUInt64.toFloat n := by
    refine rounds_of_denotes ?_
    show Denotes (UnpackedFloat.normalize Format.binary64 n.toUInt64.toNat 0 .positive)
      (nearest n)
    rwa [hword]
  have hnearest : nearest (n : ℚ) = n :=
    nearest_of_representable ⟨n, 0, hn, by norm_num, by simp⟩
  have hlt : (n : ℚ) < 2 ^ 1024 := by
    calc (n : ℚ) < ((2 ^ 53 : ℕ) : ℚ) := Nat.cast_lt.2 hn
      _ = 2 ^ 53 := by norm_num
      _ ≤ 2 ^ 1024 := pow_le_pow_right₀ one_le_two (by norm_num)
  rw [← hnearest] at hlt ⊢
  exact hrounds.1 hlt

/-- Natural numbers are rounded like other numbers. -/
theorem rounds_ofNat (n : ℕ) : Rounds (ofNat n) n := by
  unfold ofNat Float.ofScientific
  dsimp only
  split
  · rename_i hsmall
    have hproduct := (holds_toFloat hsmall.1).mul holds_one
    rwa [mul_one] at hproduct
  · -- A mantissa of 53 zeros and more digits is not too short to be multiplied.
    rename_i hlarge
    have hn : 2 ^ 53 ≤ n := by
      by_contra hlt
      exact hlarge ⟨not_le.1 hlt, Nat.zero_le _⟩
    have hvalue : (n : ℚ) = (n <<< 53 : ℕ) * 2 ^ (-53 : ℤ) * ((10 ^ 0 : ℕ) * 2 ^ (0 : ℤ)) := by
      rw [Nat.shiftLeft_eq, zpow_neg]
      push_cast
      norm_num
      ring
    refine rounds_of_denotes ?_
    show Denotes (UnpackedFloat.ofScientific Format.binary64 n 0) (nearest n)
    unfold UnpackedFloat.ofScientific
    rw [dif_neg (by omega), if_neg (by decide), if_neg (by simp), if_pos (Int.le_refl 0), hvalue]
    refine denotes_mul_finite _ _ (Or.inl ?_)
    rw [Nat.shiftLeft_eq]
    show 2 ^ 52 ≤ n * 2 ^ 53 * 1
    omega

/-- The doubles that can be weights are those that hold positive numbers. -/
theorem isPositive_iff : isPositive x = true ↔ ∃ v, 0 < v ∧ Holds x v := by
  unfold isPositive
  rw [Bool.and_eq_true, decide_eq_true_iff]
  constructor
  · rintro ⟨hfinite, hpos⟩
    exact exists_holds_of_pos hfinite hpos
  · rintro ⟨v, hpos, hv⟩
    exact ⟨hv.isFinite, zero_lt_iff.2 (Or.inl ⟨v, hpos, hv⟩)⟩

/-- The number that a double holds, if it holds a positive one. -/
def value (x : Float) : ℚ :=
  match parts x with
  | .finite .positive m e _ => m * 2 ^ e
  | _ => 0

theorem Holds.value_eq (h : Holds x v) : value x = v := by
  unfold Holds at h
  unfold value
  generalize parts x = u at h
  cases h <;> rfl

theorem holds_value (h : isPositive x = true) : 0 < value x ∧ Holds x (value x) := by
  obtain ⟨v, hpos, hv⟩ := isPositive_iff.1 h
  rw [hv.value_eq]
  exact ⟨hpos, hv⟩

theorem exists_holds_of_one_le (hfinite : x.isFinite = true) (hle : 1.0 ≤ x) :
    ∃ v, 1 ≤ v ∧ Holds x v := by
  have hpos : 0.0 < x := lt_of_lt_le ((holds_zero.lt_iff holds_one).2 one_pos) hle
  obtain ⟨v, -, hv⟩ := exists_holds_of_pos hfinite hpos
  exact ⟨v, (holds_one.le_iff hv).1 hle, hv⟩

theorem exists_holds_of_one_lt (hfinite : x.isFinite = true) (hlt : 1.0 < x) :
    ∃ v, 1 < v ∧ Holds x v := by
  have hpos : 0.0 < x := lt_of_le_lt ((holds_zero.le_iff holds_one).2 zero_le_one) hlt
  obtain ⟨v, -, hv⟩ := exists_holds_of_pos hfinite hpos
  exact ⟨v, (holds_one.lt_iff hv).1 hlt, hv⟩

end ReplicaRing.Binary64
