import ReplicaRing.Proofs.Placement.Tolerances
import ReplicaRing.Proofs.Quotas.Pinning
import ReplicaRing.Proofs.Quotas.Refusals

/-!
# Requests that no tolerance can place

A request with members, primary owners and positive weights is refused for one reason only: more
members are pinned at the whole region than there are primary owners
(`attempt_structural_iff`). Rounding alone never pins that many, but a product that overflows to
infinity does: `attempt_heavyPair` has two equal members, each with half of the units as its share,
and both are pinned.
-/

namespace ReplicaRing.PlacementRequest

variable {q : PlacementRequest} {prior : Option Ring}

/-- The plan of a request with members, primary owners and positive weights. -/
theorem exists_plan (hmembers : q.members ≠ []) (hreplicas : q.primaryReplicas ≠ 0)
    (hweights : ∀ m ∈ q.members, Binary64.isPositive m.weight = true) :
    ∃ plan, q.plan = .ok plan ∧ plan.primary = min q.primaryReplicas q.members.length := by
  have hlength : q.members.length ≠ 0 := fun h => hmembers (List.length_eq_zero_iff.1 h)
  have hfind : q.members.find? (fun m => !Binary64.isPositive m.weight) = none := by
    refine List.find?_eq_none.2 fun m hm => ?_
    rw [hweights m hm]
    exact Bool.false_ne_true
  unfold plan
  dsimp only
  rw [if_neg hlength, if_neg hreplicas, hfind]
  dsimp only
  split <;> exact ⟨_, rfl, rfl⟩

/-- With a plan, an attempt is refused exactly if the units cannot be divided. -/
theorem attempt_structural_iff_quotas (hids : q.memberIds.Nodup) {plan : ReplicaCounts}
    (hplan : q.plan = .ok plan) (prior : Option Ring) (tolerance : Float)
    (defect : PlacementDefect) :
    q.attempt prior tolerance = .error (.structural defect) ↔ q.quotas plan = .error defect := by
  constructor
  · intro h
    rcases attempt_eq_error hids h with ⟨_, hfails, -⟩ | ⟨plan', hplan', hcases⟩
    · cases hfails.symm.trans hplan
    · obtain rfl := Except.ok.inj (hplan'.symm.trans hplan)
      rcases hcases with ⟨_, hquotas, heq⟩ | ⟨_, hcheck⟩
      · rw [AttemptFailure.structural.inj heq]
        exact hquotas
      · -- Beyond the quotas an attempt fails by its tolerance only.
        exact absurd hcheck checkDeviation_ne_structural
  · exact fun hquotas => attempt_of_quotas_eq_error hplan hquotas prior tolerance

/-- A request with members, primary owners and positive weights has no structural defect but one,
whatever the earlier ring and the tolerance: more members are pinned at the whole region than there
are primary owners, and the region is assigned once too often for each of them. With fewer than
`2 ^ 26` members that does not happen as long as no product of the units and a weight overflows; then
every attempt succeeds or exceeds its tolerance. -/
theorem attempt_structural_iff {q : PlacementRequest} (hids : q.memberIds.Nodup)
    (hmembers : q.members ≠ []) (hreplicas : q.primaryReplicas ≠ 0)
    (hweights : ∀ m ∈ q.members, Binary64.isPositive m.weight = true) :
    let p := min q.primaryReplicas q.members.length
    let pinned := (Quota.settle (q.region.size * p) q.region.size
      (q.members.map Member.weight)).countP Quota.Claimant.pinned
    (∀ prior tolerance defect, q.attempt prior tolerance = .error (.structural defect) ↔
      p < pinned ∧ defect = .overassignedUnits ((pinned - p) * q.region.size)) ∧
    (q.members.length < 2 ^ 26 →
      (∀ m ∈ q.members, (Binary64.ofNat (q.region.size * p) * m.weight).isFinite = true) →
      pinned ≤ p ∧ ∀ prior tolerance, (∃ r, q.attempt prior tolerance = .ok r) ∨
        ∃ member deviation, q.attempt prior tolerance =
          .error (.toleranceExceeded member deviation tolerance)) := by
  intro p pinned
  obtain ⟨plan, hplan, hprimary⟩ := exists_plan hmembers hreplicas hweights
  have hsize := q.region.size_pos
  have hp : p ≤ q.members.length := Nat.min_le_right _ _
  have hstructural : ∀ prior tolerance defect,
      q.attempt prior tolerance = .error (.structural defect) ↔
        p < pinned ∧ defect = .overassignedUnits ((pinned - p) * q.region.size) := by
    intro prior tolerance defect
    have htotal : q.total plan = q.region.size * p := by rw [total, hprimary]
    have hroom : q.region.size * p ≤ q.region.size * (q.members.map Member.weight).length := by
      rw [List.length_map]
      exact Nat.mul_le_mul_left _ hp
    rw [attempt_structural_iff_quotas hids hplan, quotas, htotal,
      Quota.divide_eq_error_iff hroom, Nat.mul_comm q.region.size, ← Nat.sub_mul,
      Nat.mul_lt_mul_right hsize]
    rw [Nat.mul_comm p]
  refine ⟨hstructural, fun hlength hfinite => ?_⟩
  have hpinned : pinned ≤ p := by
    refine Quota.countP_pinned_settle_le hsize ?_ (by rwa [List.length_map])
      (by rwa [List.length_map]) ?_
    · intro w hw
      obtain ⟨m, hm, rfl⟩ := List.mem_map.1 hw
      exact hweights m hm
    · intro w hw
      obtain ⟨m, hm, rfl⟩ := List.mem_map.1 hw
      exact hfinite m hm
  refine ⟨hpinned, fun prior tolerance => ?_⟩
  rcases attempt_verdict hids prior with ⟨defect, hfails⟩ | ⟨member, deviation, r, hattempt⟩
  · exact absurd ((hstructural _ _ _).1 (hfails tolerance)).1 (Nat.not_lt.2 hpinned)
  · by_cases hlt : tolerance < deviation
    · exact Or.inr ⟨member, deviation, (hattempt tolerance).trans (if_pos hlt)⟩
    · exact Or.inl ⟨_, (hattempt tolerance).trans (if_neg hlt)⟩

theorem attempt_structural_iff_fourMembers :
    fourMembers.memberIds.Nodup ∧ fourMembers.members ≠ [] ∧ fourMembers.primaryReplicas ≠ 0 ∧
      (∀ m ∈ fourMembers.members, Binary64.isPositive m.weight = true) ∧
      ∀ prior tolerance, (∃ r, fourMembers.attempt prior tolerance = .ok r) ∨
        ∃ member deviation, fourMembers.attempt prior tolerance =
          .error (.toleranceExceeded member deviation tolerance) := by
  have hids : fourMembers.memberIds.Nodup := by decide
  have hmembers : fourMembers.members ≠ [] := by decide
  have hreplicas : fourMembers.primaryReplicas ≠ 0 := by decide
  have hweights : ∀ m ∈ fourMembers.members, Binary64.isPositive m.weight = true := by
    decide +kernel
  obtain ⟨-, hplaced⟩ := attempt_structural_iff hids hmembers hreplicas hweights
  exact ⟨hids, hmembers, hreplicas, hweights, (hplaced (by decide) (by decide +kernel)).2⟩

/-! ### A product that overflows -/

/-- Two members of one weight on sixteen coordinates, each of which needs one owner. The weights and
their sum are below the largest double, and sixteen times a weight is above it. -/
def heavyPair : PlacementRequest where
  node := "parent"
  policy := "policy"
  region := ⟨0, 15, by decide, by decide⟩
  members := [⟨"a", 8e307⟩, ⟨"b", 8e307⟩]
  primaryReplicas := 1
  secondaryReplicas := 0

/-- Each member's share is eight of the sixteen units, but comes out infinite: both are pinned at
sixteen units, and sixteen are too many. -/
theorem attempt_heavyPair :
    heavyPair.memberIds.Nodup ∧ heavyPair.members ≠ [] ∧ heavyPair.primaryReplicas ≠ 0 ∧
      (∀ m ∈ heavyPair.members, Binary64.isPositive m.weight = true) ∧
      ((heavyPair.members.map Member.weight).foldl (· + ·) 0.0).isFinite = true ∧
      (Quota.settle 16 16 (heavyPair.members.map Member.weight)).all Quota.Claimant.pinned = true ∧
      heavyPair.attempt none 0.5 = .error (.structural (.overassignedUnits 16)) := by
  have hids : heavyPair.memberIds.Nodup := by decide
  have hmembers : heavyPair.members ≠ [] := by decide
  have hreplicas : heavyPair.primaryReplicas ≠ 0 := by decide
  have hweights : ∀ m ∈ heavyPair.members, Binary64.isPositive m.weight = true := by
    decide +kernel
  obtain ⟨plan, hplan, hprimary⟩ := exists_plan hmembers hreplicas hweights
  have hquotas : heavyPair.quotas plan = .error (.overassignedUnits 16) := by
    rw [quotas, total, hprimary]
    decide +kernel
  exact ⟨hids, hmembers, hreplicas, hweights, by decide +kernel, by decide +kernel,
    (attempt_structural_iff_quotas hids hplan none 0.5 _).2 hquotas⟩

end ReplicaRing.PlacementRequest
