import ReplicaRing.Proofs.Binary64.Values
import ReplicaRing.Proofs.Quotas.Rounds

/-!
# How many members are pinned

A round of pinning compares shares that have been rounded four times: the units, the sum of the
weights, a product and a quotient. As long as no product overflows, all of that together is too
little to pin a member too many. The sum of the weights is off by one rounding for each member
(`sum_le_of_foldl`), so the members that exceed the capacity, `e` of them, would need more than
`e / (1 + unit) ^ (n + 2)` times the capacity of the units (`natCast_countP_le`), and there are a
whole number of capacities left. Below `2 ^ 26` members the factor is too small to make a
difference (`countP_pinned_settle_le`).
-/

namespace ReplicaRing.Quota

open Binary64

/-! ### Sums of doubles -/

theorem infinite_foldl {ws : List Float} (h : ∀ w ∈ ws, isPositive w = true) {x : Float}
    (hx : Infinite x) : Infinite (ws.foldl (· + ·) x) := by
  induction ws generalizing x with
  | nil => exact hx
  | cons w ws ih =>
    have hw := (holds_value (h w (List.mem_cons_self ..))).2
    exact ih (fun w' hw' => h w' (List.mem_cons_of_mem _ hw')) (hx.add hw)

theorem sum_value_nonneg {ws : List Float} (h : ∀ w ∈ ws, isPositive w = true) :
    0 ≤ (ws.map value).sum := by
  refine List.sum_nonneg fun v hv => ?_
  obtain ⟨w, hw, rfl⟩ := List.mem_map.1 hv
  exact (holds_value (h w hw)).1.le

theorem one_le_one_add_unit : 1 ≤ 1 + unit := by
  unfold unit
  norm_num

/-- A sum of doubles overflows, or it falls short of the exact sum by one rounding for each of
them. -/
theorem sum_le_of_foldl {ws : List Float} (h : ∀ w ∈ ws, isPositive w = true) {x : Float} {a : ℚ}
    (hx : Holds x a) :
    Infinite (ws.foldl (· + ·) x) ∨
      ∃ s, Holds (ws.foldl (· + ·) x) s ∧ a + (ws.map value).sum ≤ s * (1 + unit) ^ ws.length := by
  induction ws generalizing x a with
  | nil => exact Or.inr ⟨a, hx, by simp⟩
  | cons w ws ih =>
    have hrest : ∀ w' ∈ ws, isPositive w' = true := fun w' hw' => h w' (List.mem_cons_of_mem _ hw')
    obtain ⟨hpos, hw⟩ := holds_value (h w (List.mem_cons_self ..))
    rw [List.foldl_cons]
    rcases (hx.add hw).holds_or_infinite with ⟨-, hsum⟩ | hsum
    · refine (ih hrest hsum).imp_right fun ⟨s, hs, hle⟩ => ⟨s, hs, ?_⟩
      have hadded : a + value w ≤ nearest (a + value w) * (1 + unit) :=
        le_nearest (add_nonneg hx.nonneg hpos.le)
          ((whole_of_representable hx.representable).add (whole_of_representable hw.representable))
      have hlater := le_mul_of_one_le_right (sum_value_nonneg hrest) one_le_one_add_unit
      calc a + ((w :: ws).map value).sum
          = a + value w + (ws.map value).sum := by rw [List.map_cons, List.sum_cons, add_assoc]
        _ ≤ (nearest (a + value w) + (ws.map value).sum) * (1 + unit) := by linarith
        _ ≤ s * (1 + unit) ^ ws.length * (1 + unit) :=
            mul_le_mul_of_nonneg_right hle (zero_le_one.trans one_le_one_add_unit)
        _ = s * (1 + unit) ^ (w :: ws).length := by rw [List.length_cons, pow_succ, mul_assoc]
    · exact Or.inl (infinite_foldl hrest hsum)

/-! ### Shares above the capacity -/

variable {pool : Pool} {capacity units : ℕ} {w : Float} {s : ℚ}

/-- Where the weights overflow, the shares are zero and exceed nothing. -/
theorem share_le_of_infinite {u : ℚ} (hunits : Holds pool.units u) (hw : isPositive w = true)
    (hproduct : nearest (u * value w) < 2 ^ 1024) (hweight : Infinite pool.weight) :
    ¬Binary64.ofNat capacity < pool.share w := by
  have hzero : Holds (pool.share w) 0 :=
    ((hunits.mul (holds_value hw).2).1 hproduct).div_infinite hweight
  rcases (rounds_ofNat capacity).holds_or_infinite with ⟨-, hcapacity⟩ | hcapacity
  · rw [hcapacity.lt_iff hzero]
    exact not_lt.2 hcapacity.nonneg
  · exact hcapacity.not_lt

/-- A share that exceeds the capacity does so by the exact numbers, but for two roundings. -/
theorem mul_le_of_lt_share (hunits : Holds pool.units (nearest units)) (hw : isPositive w = true)
    (hproduct : nearest (nearest units * value w) < 2 ^ 1024) (hweight : Holds pool.weight s)
    (hs : 0 < s) (hlt : Binary64.ofNat capacity < pool.share w) :
    capacity * s ≤ units * (1 + unit) ^ 2 * value w := by
  obtain ⟨hpos, hvalue⟩ := holds_value hw
  set z := nearest (nearest units * value w) with hz
  have hshare : Rounds (pool.share w) (z / s) := ((hunits.mul hvalue).1 hproduct).div hweight hs
  have hrounded : nearest capacity < nearest (z / s) := by
    rcases (rounds_ofNat capacity).holds_or_infinite with ⟨hfinite, hcapacity⟩ | hcapacity
    · rcases lt_or_ge (nearest (z / s)) (2 ^ 1024) with hsmall | hlarge
      · exact (hcapacity.lt_iff (hshare.1 hsmall)).1 hlt
      · exact hfinite.trans_le hlarge
    · exact absurd hlt hcapacity.not_lt
  have hunits₀ : (0 : ℚ) ≤ units := Nat.cast_nonneg _
  have hz₀ : 0 ≤ z := nearest_nonneg _
  -- A quotient up to the capacity would be rounded to no more than the capacity is.
  have hexact : capacity * s < z := by
    rw [← lt_div_iff₀ hs]
    by_contra hle
    exact absurd hrounded (not_lt.2 (nearest_mono (div_nonneg hz₀ hs.le) (not_lt.1 hle)))
  have hproduct : z ≤ nearest units * value w * (1 + unit) := by
    -- The units are a natural number still, and the weight is a multiple of the least one.
    refine nearest_le (mul_nonneg hunits.nonneg hpos.le) ?_
    obtain ⟨m, hm⟩ := exists_nearest_natCast units
    rw [hm]
    exact (whole_of_representable hvalue.representable).natCast_mul m
  have hunit : 0 ≤ 1 + unit := zero_le_one.trans one_le_one_add_unit
  calc capacity * s ≤ z := hexact.le
    _ ≤ nearest units * value w * (1 + unit) := hproduct
    _ ≤ units * (1 + unit) * value w * (1 + unit) := by
        refine mul_le_mul_of_nonneg_right (mul_le_mul_of_nonneg_right ?_ hpos.le) hunit
        exact nearest_le hunits₀ (whole_natCast units)
    _ = units * (1 + unit) ^ 2 * value w := by ring

theorem countP_mul_le {α : Type} {xs : List α} {p : α → Bool} {f : α → ℚ} {a b : ℚ}
    (h : ∀ x ∈ xs, p x = true → a ≤ b * f x) (hf : ∀ x ∈ xs, 0 ≤ b * f x) :
    xs.countP p * a ≤ b * (xs.map f).sum := by
  induction xs with
  | nil => simp
  | cons x xs ih =>
    have hrest := ih (fun y hy => h y (List.mem_cons_of_mem _ hy))
      fun y hy => hf y (List.mem_cons_of_mem _ hy)
    have hhead := hf x (List.mem_cons_self ..)
    rw [List.countP_cons, List.map_cons, List.sum_cons, mul_add]
    cases hx : p x with
    | false =>
      rw [if_neg Bool.false_ne_true, Nat.add_zero]
      linarith
    | true =>
      have := h x (List.mem_cons_self ..) hx
      rw [if_pos rfl, Nat.cast_add, Nat.cast_one, add_mul, one_mul]
      linarith

/-- Few roundings do not add up to a whole unit. -/
theorem one_add_unit_pow_le {n : ℕ} (h : n ≤ 2 ^ 52) : (1 + unit) ^ n ≤ 1 + n / 2 ^ 52 := by
  induction n with
  | zero => simp
  | succ n ih =>
    have hn : (n : ℚ) ≤ 2 ^ 52 := by exact_mod_cast (Nat.le_succ n).trans h
    have hunit : 0 ≤ 1 + unit := zero_le_one.trans one_le_one_add_unit
    calc (1 + unit) ^ (n + 1) = (1 + unit) ^ n * (1 + unit) := pow_succ ..
      _ ≤ (1 + n / 2 ^ 52) * (1 + unit) := mul_le_mul_of_nonneg_right (ih (by omega)) hunit
      _ ≤ 1 + (n + 1 : ℕ) / 2 ^ 52 := by
          unfold unit
          push_cast
          linarith

theorem le_of_le_mul_pow {e m n : ℕ} (hm : m < 2 ^ 26) (hn : n < 2 ^ 26)
    (h : (e : ℚ) ≤ m * (1 + unit) ^ (n + 2)) : e ≤ m := by
  have hpow := one_add_unit_pow_le (n := n + 2) (by omega)
  have hsmall : (m * (n + 2 : ℕ) : ℚ) < 2 ^ 52 := by
    have hle : m * (n + 2) ≤ (2 ^ 26 - 1) * (2 ^ 26 + 1) := Nat.mul_le_mul (by omega) (by omega)
    have hlt : m * (n + 2) < 2 ^ 52 := hle.trans_lt (by norm_num)
    exact_mod_cast hlt
  have hlt : (e : ℚ) < (m + 1 : ℕ) := by
    calc (e : ℚ) ≤ m * (1 + unit) ^ (n + 2) := h
      _ ≤ m * (1 + (n + 2 : ℕ) / 2 ^ 52) := mul_le_mul_of_nonneg_left hpow (Nat.cast_nonneg m)
      _ = m + m * (n + 2 : ℕ) / 2 ^ 52 := by ring
      _ < m + 1 := by
          rw [add_lt_add_iff_left, div_lt_one (by positivity)]
          exact hsmall
      _ = (m + 1 : ℕ) := by push_cast; rfl
  exact Nat.lt_succ_iff.1 (Nat.cast_lt.1 hlt)

/-- Where `m` capacities are left, no more than `m` of fewer than `2 ^ 26` members exceed the
capacity. -/
theorem countP_share_le (pool : Pool) {ws : List Float} {m : ℕ} (hcapacity : 0 < capacity)
    (hpositive : ∀ w ∈ ws, isPositive w = true) (hlength : ws.length < 2 ^ 26) (hm : m < 2 ^ 26)
    (hunits : Holds pool.units (nearest (m * capacity : ℕ)))
    (hproduct : ∀ w ∈ ws, nearest (nearest (m * capacity : ℕ) * value w) < 2 ^ 1024)
    (hweight : pool.weight = ws.foldl (· + ·) 0.0) :
    ws.countP (fun w => Binary64.ofNat capacity < pool.share w) ≤ m := by
  by_cases hnil : ws = []
  · rw [hnil]
    exact Nat.zero_le m
  rcases sum_le_of_foldl hpositive holds_zero with hinfinite | ⟨s, hs, hsum⟩
  · rw [← hweight] at hinfinite
    rw [List.countP_eq_zero.2]
    · exact Nat.zero_le m
    · intro w hw
      rw [decide_eq_true_iff]
      exact share_le_of_infinite hunits (hpositive w hw) (hproduct w hw) hinfinite
  · rw [← hweight] at hs
    rw [zero_add] at hsum
    have hunit : 0 < 1 + unit := zero_lt_one.trans_le one_le_one_add_unit
    have hpos : 0 < s := by
      have hsum₀ : 0 < (ws.map value).sum := by
        refine List.sum_pos _ (fun v hv => ?_) (by simpa using hnil)
        obtain ⟨w, hw, rfl⟩ := List.mem_map.1 hv
        exact (holds_value (hpositive w hw)).1
      exact pos_of_mul_pos_left (hsum₀.trans_le hsum) (pow_pos hunit _).le
    have hshares : ws.countP (fun w => Binary64.ofNat capacity < pool.share w) * (capacity * s) ≤
        (m * capacity : ℕ) * (1 + unit) ^ 2 * (ws.map value).sum := by
      refine countP_mul_le (fun w hw hlt => ?_) fun w hw => ?_
      · exact mul_le_of_lt_share hunits (hpositive w hw) (hproduct w hw) hs hpos
          (of_decide_eq_true hlt)
      · have := (holds_value (hpositive w hw)).1
        positivity
    refine le_of_le_mul_pow hm hlength (le_of_mul_le_mul_right ?_
      (mul_pos (Nat.cast_pos.2 hcapacity) hpos : (0 : ℚ) < capacity * s))
    calc ws.countP (fun w => Binary64.ofNat capacity < pool.share w) * (capacity * s)
        ≤ (m * capacity : ℕ) * (1 + unit) ^ 2 * (ws.map value).sum := hshares
      _ ≤ (m * capacity : ℕ) * (1 + unit) ^ 2 * (s * (1 + unit) ^ ws.length) :=
          mul_le_mul_of_nonneg_left hsum (by positivity)
      _ = m * (1 + unit) ^ (ws.length + 2) * (capacity * s) := by
          rw [pow_add]
          push_cast
          ring

/-! ### Rounds of pinning -/

/-- A product that does not overflow bounds the units, too. -/
theorem lt_of_isFinite_mul (hw : isPositive w = true)
    (h : (Binary64.ofNat units * w).isFinite = true) :
    nearest units < 2 ^ 1024 ∧ nearest (nearest units * value w) < 2 ^ 1024 := by
  obtain ⟨hpos, hvalue⟩ := holds_value hw
  rcases (rounds_ofNat units).holds_or_infinite with ⟨hsmall, hunits⟩ | hunits
  · refine ⟨hsmall, ?_⟩
    by_contra hlarge
    have hinfinite := (hunits.mul hvalue).2 (not_lt.1 hlarge)
    rw [hinfinite.not_isFinite] at h
    cases h
  · rw [(hunits.mul hvalue hpos).not_isFinite] at h
    cases h

/-- A round pins those that are pinned already and the others whose share exceeds the capacity. -/
theorem countP_exceeds (pool : Pool) (capacity : ℕ) (claimants : List Claimant) :
    (claimants.map fun c => { c with pinned := c.exceeds pool capacity }).countP
        Claimant.pinned =
      claimants.countP Claimant.pinned +
        ((claimants.filter fun c => !c.pinned).map Claimant.weight).countP
          fun w => Binary64.ofNat capacity < pool.share w := by
  induction claimants with
  | nil => rfl
  | cons c rest ih =>
    obtain ⟨weight, pinned⟩ := c
    rw [List.map_cons, List.countP_cons, List.countP_cons, ih]
    cases pinned with
    | true =>
      rw [List.filter_cons_of_neg (by simp), Claimant.exceeds, Bool.true_or]
      exact Nat.add_right_comm ..
    | false =>
      rw [List.filter_cons_of_pos (by simp), List.map_cons, List.countP_cons, Claimant.exceeds,
        Bool.false_or]
      exact Nat.add_assoc ..

/-- What the rounds of pinning keep: the claimants have the weights, and no more of them are pinned
than there are capacities to divide. -/
structure PinnedWithin (weights : List Float) (p : ℕ) (claimants : List Claimant) : Prop where
  weights : claimants.map Claimant.weight = weights
  pinned : claimants.countP Claimant.pinned ≤ p

theorem PinnedWithin.pinRound {weights : List Float} {claimants : List Claimant} {p : ℕ}
    (h : PinnedWithin weights p claimants) (hcapacity : 0 < capacity)
    (hpositive : ∀ w ∈ weights, isPositive w = true) (hlength : weights.length < 2 ^ 26)
    (hp : p ≤ weights.length) (hunits : nearest (capacity * p : ℕ) < 2 ^ 1024)
    (hproduct : ∀ w ∈ weights, nearest (nearest (capacity * p : ℕ) * value w) < 2 ^ 1024) :
    PinnedWithin weights p (pinRound (capacity * p) capacity claimants) where
  weights := by
    rw [Quota.pinRound, List.map_map]
    exact h.weights
  pinned := by
    have hpinned := h.pinned
    set k := claimants.countP Claimant.pinned with hk
    -- What is pinned takes whole capacities, so whole capacities are left.
    have hleft : capacity * p - k * capacity = (p - k) * capacity := by
      rw [Nat.mul_comm capacity, Nat.sub_mul]
    have hle : ((p - k) * capacity : ℕ) ≤ capacity * p := by
      rw [← hleft]
      exact Nat.sub_le _ _
    have hsublist :
        ((claimants.filter fun c => !c.pinned).map Claimant.weight).Sublist weights := by
      rw [← h.weights]
      exact List.filter_sublist.map _
    have hsmaller : nearest ((p - k) * capacity : ℕ) ≤ nearest (capacity * p : ℕ) :=
      nearest_mono (Nat.cast_nonneg _) (Nat.cast_le.2 hle)
    rw [Quota.pinRound, countP_exceeds, ← hk]
    have hshares := countP_share_le (poolOf (capacity * p) capacity claimants) (m := p - k)
      hcapacity (fun w hw => hpositive w (hsublist.subset hw))
      (hsublist.length_le.trans_lt hlength) (by omega) ?_ (fun w hw => ?_) rfl
    · omega
    · rw [poolOf, ← hk, hleft]
      exact (rounds_ofNat _).1 (hsmaller.trans_lt hunits)
    · have hw := hsublist.subset hw
      have hpos := (holds_value (hpositive w hw)).1
      refine lt_of_le_of_lt (nearest_mono ?_ ?_) (hproduct w hw)
      · exact mul_nonneg (nearest_nonneg _) hpos.le
      · exact mul_le_mul_of_nonneg_right hsmaller hpos.le

/-- Where no product overflows, fewer than `2 ^ 26` members never have more of them pinned than
there are capacities to divide. -/
theorem countP_pinned_settle_le {weights : List Float} {p : ℕ} (hcapacity : 0 < capacity)
    (hpositive : ∀ w ∈ weights, isPositive w = true) (hlength : weights.length < 2 ^ 26)
    (hp : p ≤ weights.length)
    (hfinite : ∀ w ∈ weights, (Binary64.ofNat (capacity * p) * w).isFinite = true) :
    (settle (capacity * p) capacity weights).countP Claimant.pinned ≤ p := by
  cases hweights : weights with
  | nil => exact Nat.zero_le p
  | cons w rest =>
    rw [← hweights]
    have hw : w ∈ weights := hweights ▸ List.mem_cons_self ..
    have hunits := (lt_of_isFinite_mul (hpositive w hw) (hfinite w hw)).1
    have hstart : PinnedWithin weights p (weights.map fun w => ⟨w, false⟩) := by
      constructor
      · rw [List.map_map]
        exact List.map_id _
      · rw [List.countP_map, List.countP_eq_zero.2 (by simp)]
        exact Nat.zero_le p
    have hend := (comesToRest_settle (capacity * p) capacity weights).keeps
      (P := PinnedWithin weights p) (fun claimants h => h.pinRound hcapacity hpositive hlength hp
        hunits fun w hw => (lt_of_isFinite_mul (hpositive w hw) (hfinite w hw)).2) hstart
    exact hend.pinned

end ReplicaRing.Quota
