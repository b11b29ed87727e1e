import ReplicaRing.Placement.Tolerance
import ReplicaRing.Proofs.Binary64.Values

/-!
# Schedules that come to an end

The loop that collects a schedule ends if one of the tolerances passes the limit
(`BuildConfig.Ends`). The schedule then has the powers of the growth factor before the first one
that does, and the initial tolerance is among them (`Sound.exists_schedule_eq`).

Not every configuration without a defect ends. What decides is whether a tolerance stalls: the
tolerances never get smaller, so one that stalls below the limit is never left behind, and without a
stall they run out of doubles (`Sound.ends_iff`). The least doubles are rounded back to themselves
(`not_ends_leastSchedule`), but none stalls that has 53 digits. So from `leastNormal` on, a
configuration ends exactly if its limit is finite (`Sound.ends_iff_isFinite`).
-/

namespace ReplicaRing

open Binary64

namespace BuildConfig

variable {c : BuildConfig}

/-- The tolerance of the `k`-th attempt, if it comes to that. -/
def toleranceAt (c : BuildConfig) (k : ℕ) : Float :=
  (· * c.growth)^[k] c.initialTolerance

/-- A tolerance passes the limit, so the loop that collects the schedule ends. -/
def Ends (c : BuildConfig) : Prop :=
  ∃ k, ¬c.toleranceAt k ≤ c.limit

theorem toleranceAt_zero (c : BuildConfig) : c.toleranceAt 0 = c.initialTolerance :=
  rfl

theorem toleranceAt_succ (c : BuildConfig) (k : ℕ) :
    c.toleranceAt (k + 1) = c.toleranceAt k * c.growth :=
  Function.iterate_succ_apply' ..

/-! ### The loop -/

/-- A loop that passes its limit has collected the powers of the growth factor before. -/
theorem growFrom_eq {growth limit : Float} {before : List Float} {k : ℕ} {x : Float}
    (hle : ∀ j < k, (· * growth)^[j] x ≤ limit) (hpast : ¬(· * growth)^[k] x ≤ limit) :
    growFrom growth limit before x =
      before.reverse ++ (List.range k).map fun j => (· * growth)^[j] x := by
  induction k generalizing before x with
  | zero =>
    have hfirst : ¬x ≤ limit := hpast
    rw [growFrom_eq_ite, if_neg hfirst, List.range_zero, List.map_nil, List.append_nil]
  | succ k ih =>
    have hfirst : x ≤ limit := hle 0 (by omega)
    rw [growFrom_eq_ite, if_pos hfirst, ih (fun j hj => hle (j + 1) (by omega)) hpast,
      List.reverse_cons, List.append_assoc, List.range_succ_eq_map, List.map_cons, List.map_map]
    rfl

/-- A schedule has the tolerances up to the first one past its limit. -/
theorem schedule_eq {k : ℕ} (hle : ∀ j < k, c.toleranceAt j ≤ c.limit)
    (hpast : ¬c.toleranceAt k ≤ c.limit) : c.schedule = (List.range k).map c.toleranceAt := by
  rw [schedule, growUpTo_eq_growFrom, growFrom_eq hle hpast]
  rfl

/-! ### Configurations without a defect -/

/-- The numbers of a configuration are in their bounds. -/
structure Sound (c : BuildConfig) : Prop where
  initial : 0.0 < c.initialTolerance
  growth : ∃ w, 1 < w ∧ Holds c.growth w
  multiple : ∃ w, 1 ≤ w ∧ Holds c.ceilingMultiple w

theorem sound_of_defect?_eq_none (h : c.defect? = none) : c.Sound := by
  unfold defect? at h
  split at h
  · cases h
  rename_i hinitial
  split at h
  · cases h
  rename_i hgrowth
  split at h
  · cases h
  rename_i hmultiple
  rw [Bool.not_eq_true, Bool.not_eq_false', Bool.and_eq_true, decide_eq_true_iff]
    at hinitial hgrowth hmultiple
  exact ⟨hinitial.2, exists_holds_of_one_lt hgrowth.1 hgrowth.2,
    exists_holds_of_one_le hmultiple.1 hmultiple.2⟩

namespace Sound

theorem toleranceAt_pos (hc : c.Sound) (k : ℕ) : 0.0 < c.toleranceAt k := by
  obtain ⟨w, hw, hgrowth⟩ := hc.growth
  induction k with
  | zero =>
    rw [toleranceAt_zero]
    exact hc.initial
  | succ k ih =>
    rw [toleranceAt_succ]
    exact mul_pos_of_one_le ih hgrowth hw.le

theorem toleranceAt_mono (hc : c.Sound) {i j : ℕ} (hij : i ≤ j) :
    c.toleranceAt i ≤ c.toleranceAt j := by
  obtain ⟨w, hw, hgrowth⟩ := hc.growth
  induction j, hij using Nat.le_induction with
  | base => exact le_self_of_pos (hc.toleranceAt_pos i)
  | succ j hij ih =>
    rw [toleranceAt_succ]
    exact le_of_le_le ih (le_mul_of_one_le (hc.toleranceAt_pos j) hgrowth hw.le)

/-- Neither the multiple nor the allowance makes the first tolerance smaller. -/
theorem initialTolerance_le_limit (hc : c.Sound) : c.initialTolerance ≤ c.limit := by
  obtain ⟨w, hw, hmultiple⟩ := hc.multiple
  obtain ⟨a, ha, hallowance⟩ : ∃ a, 1 ≤ a ∧ Holds (1.0 + 1e-9) a :=
    exists_holds_of_one_le (by decide +kernel) (by decide +kernel)
  have hceiling : 0.0 < c.ceiling := mul_pos_of_one_le hc.initial hmultiple hw
  exact le_of_le_le (le_mul_of_one_le hc.initial hmultiple hw)
    (le_mul_of_one_le hceiling hallowance ha)

/-- A schedule that ends has the tolerances up to the last one that does not pass the limit. -/
theorem exists_schedule_eq (hc : c.Sound) (h : c.Ends) :
    ∃ k, (∀ j ≤ k, c.toleranceAt j ≤ c.limit) ∧ ¬c.toleranceAt (k + 1) ≤ c.limit ∧
      c.schedule = (List.range (k + 1)).map c.toleranceAt := by
  classical
  have hle : ∀ j < Nat.find h, c.toleranceAt j ≤ c.limit := fun j hj =>
    not_not.1 (Nat.find_min h hj)
  have hpast := Nat.find_spec h
  generalize Nat.find h = k at hle hpast
  cases k with
  | zero =>
    -- The first tolerance to pass the limit is not the initial one.
    exact absurd hc.initialTolerance_le_limit hpast
  | succ k => exact ⟨k, fun j hj => hle j (by omega), hpast, schedule_eq hle hpast⟩

/-! ### Stalls -/

/-- A tolerance that does not grow is never left behind. -/
theorem toleranceAt_le_of_stall (hc : c.Sound) {k : ℕ}
    (hstall : ¬c.toleranceAt k < c.toleranceAt (k + 1)) (j : ℕ) :
    c.toleranceAt j ≤ c.toleranceAt k := by
  obtain ⟨w, hw, hgrowth⟩ := hc.growth
  have hnext : c.toleranceAt k * c.growth ≤ c.toleranceAt k := by
    rw [← toleranceAt_succ]
    exact le_of_not_lt_of_pos (hc.toleranceAt_pos k) (hc.toleranceAt_pos (k + 1)) hstall
  -- What is not above the stalled tolerance is multiplied to something not above its product.
  induction j with
  | zero => exact hc.toleranceAt_mono (Nat.zero_le k)
  | succ j ih =>
    rw [toleranceAt_succ]
    exact le_of_le_le (mul_le_mul_of_one_le (hc.toleranceAt_pos j) ih hgrowth hw.le) hnext

/-- A configuration ends exactly if no tolerance up to its limit stalls. -/
theorem ends_iff (hc : c.Sound) : c.Ends ↔
    ∀ k, c.toleranceAt k ≤ c.limit → c.toleranceAt k < c.toleranceAt (k + 1) := by
  constructor
  · rintro ⟨last, hpast⟩ k hk
    by_contra hstall
    exact hpast (le_of_le_le (hc.toleranceAt_le_of_stall hstall last) hk)
  · -- Tolerances that grow forever would be infinitely many doubles.
    intro hgrows
    by_contra hnever
    have hle : ∀ k, c.toleranceAt k ≤ c.limit := fun k => not_not.1 fun h => hnever ⟨k, h⟩
    have hinj : Function.Injective fun k => (c.toleranceAt k).toBits.toFin := by
      refine .of_lt_imp_ne fun i j hij hbits => ?_
      have heq : c.toleranceAt i = c.toleranceAt j :=
        Float.toBits_inj.1 (UInt64.toFin_inj.1 hbits)
      have hlt := lt_of_lt_le (hgrows i (hle i)) (hc.toleranceAt_mono hij)
      rw [heq] at hlt
      exact not_lt_self _ hlt
    exact not_injective_infinite_finite _ hinj

/-- No tolerance passes an infinite limit. -/
theorem isFinite_limit (hc : c.Sound) (h : c.Ends) : c.limit.isFinite = true := by
  obtain ⟨k, hpast⟩ := h
  rcases zero_lt_iff.1 (lt_of_lt_le hc.initial hc.initialTolerance_le_limit) with
    ⟨v, -, hv⟩ | hinfinite
  · exact hv.isFinite
  · exact absurd (le_infinite_of_pos (hc.toleranceAt_pos k) hinfinite) hpast

/-- From the least normal double on, only an infinite limit keeps a configuration from ending. -/
theorem ends_iff_isFinite (hc : c.Sound) (hnormal : leastNormal ≤ c.initialTolerance) :
    c.Ends ↔ c.limit.isFinite = true := by
  refine ⟨hc.isFinite_limit, fun hfinite => hc.ends_iff.2 fun k hk => ?_⟩
  obtain ⟨w, hw, hgrowth⟩ := hc.growth
  rcases zero_lt_iff.1 (hc.toleranceAt_pos k) with ⟨v, -, hv⟩ | hinfinite
  · -- A tolerance that starts from 53 digits keeps them.
    rw [← toleranceAt_zero] at hnormal
    have hleast := le_of_le_le hnormal (hc.toleranceAt_mono (Nat.zero_le k))
    rw [toleranceAt_succ]
    exact hv.lt_mul hgrowth ((holds_leastNormal.le_iff hv).1 hleast) hw
  · rw [(hinfinite.of_le hk).not_isFinite] at hfinite
    cases hfinite

end Sound

/-- The least positive double does not grow by a quarter. -/
def leastSchedule : BuildConfig where
  initialTolerance := 5e-324
  growth := 1.25
  ceilingMultiple := 2.0
  parallel := false

/-- Having no defect and a finite limit does not make a configuration end. -/
theorem not_ends_leastSchedule :
    leastSchedule.defect? = none ∧ leastSchedule.limit.isFinite = true ∧ ¬leastSchedule.Ends := by
  have hdefect : leastSchedule.defect? = none := by decide +kernel
  refine ⟨hdefect, by decide +kernel, fun hends => ?_⟩
  have hgrows := (sound_of_defect?_eq_none hdefect).ends_iff.1 hends 0 (by decide +kernel)
  revert hgrows
  decide +kernel

/-- The ceiling of a configuration without a defect may overflow. -/
example : (⟨1e300, 2.0, 1e10, false⟩ : BuildConfig).defect? = none ∧
    (⟨1e300, 2.0, 1e10, false⟩ : BuildConfig).limit.isFinite = false := by
  decide +kernel

end BuildConfig

end ReplicaRing
