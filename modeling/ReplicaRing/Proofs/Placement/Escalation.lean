import ReplicaRing.Proofs.Placement.Outcome
import ReplicaRing.Proofs.Results

/-!
# Placing at the tolerances of a schedule

A ring that is placed comes out of an attempt at one of the tolerances (`place_eq_ok`), so it is a
ring of the node, the policy and the region that were asked for, and only members own anything in it
(`placed_of_place`). Where a placement fails, an attempt has failed, and no tolerance is to blame
for a structural defect (`exists_attempt_of_reports`). The defect of having no members is reported
only of a request that has none (`not_reports_noMembers`).
-/

namespace ReplicaRing

/-- An error reports a defect of a placement. -/
def Error.Reports (defect : PlacementDefect) : Error → Prop
  | .structuralBuild _ (.placement reported) => reported = defect
  | .structuralBuild _ (.toleranceExhausted _ (some (.structural reported))) => reported = defect
  | _ => False

namespace PlacementRequest

variable {q : PlacementRequest} {prior : Option Ring} {config : BuildConfig} {r : Ring}

/-- A ring has what a request asks for: its node, policy and region, and only members as owners. -/
structure Placed (q : PlacementRequest) (r : Ring) : Prop where
  node : r.node = q.node
  policy : r.policy = q.policy
  region : r.region = q.region
  members : ∀ e ∈ r.entries.toList, ∀ id ∈ e.owners.every, id ∈ q.memberIds

/-- Of a ring that comes out of an attempt, only the entries depend on the earlier ring. -/
theorem attempt_parts {plan : ReplicaCounts} {quotas : List Nat} {tolerance : Float}
    (hplan : q.plan = .ok plan) (hquotas : q.quotas plan = .ok quotas)
    (hcheck : q.checkDeviation (q.total plan) quotas tolerance = .ok ())
    (h : q.attempt prior tolerance = .ok r) :
    r.parts = ⟨q.node, q.policy, q.region, plan.primary, plan.secondary, tolerance,
      r.entries.toList⟩ := by
  rw [attempt_eq_ringOf hplan hquotas hcheck, mapError_eq_ok] at h
  obtain ⟨entries, -, hring⟩ := bind_eq_ok.1 h
  split at hring
  · rename_i hentries
    obtain rfl := Except.ok.inj hring
    exact Ring.parts_of_ofEntries? hentries
  · cases hring

theorem placed_of_attempt (hids : q.memberIds.Nodup) {tolerance : Float}
    (h : q.attempt prior tolerance = .ok r) : q.Placed r := by
  obtain ⟨plan, quotas, hplan, hquotas, hcheck, hrealises⟩ := attempt_eq_ok hids h
  have hparts := attempt_parts hplan hquotas hcheck h
  refine ⟨congrArg Ring.Parts.node hparts, congrArg Ring.Parts.policy hparts,
    congrArg Ring.Parts.region hparts, fun e he => ?_⟩
  exact (hrealises.soundOwners (settled_of_eq_ok hids hplan hquotas) he).members

theorem escalate_eq_ok {ceiling : Float} {last : Option AttemptFailure} {tolerances : List Float}
    (h : q.escalate prior ceiling last tolerances = .ok r) :
    ∃ tolerance ∈ tolerances, q.attempt prior tolerance = .ok r := by
  induction tolerances generalizing last with
  | nil => cases h
  | cons tolerance rest ih =>
    rw [escalate] at h
    split at h
    · rename_i hattempt
      obtain rfl := Except.ok.inj h
      exact ⟨tolerance, List.mem_cons_self .., hattempt⟩
    · cases h
    · obtain ⟨other, hother, hattempt⟩ := ih h
      exact ⟨other, List.mem_cons_of_mem _ hother, hattempt⟩

theorem place_eq_ok (h : q.place prior config = .ok r) :
    ∃ tolerance ∈ config.schedule, q.attempt prior tolerance = .ok r :=
  escalate_eq_ok (mapError_eq_ok.1 h)

theorem placed_of_place (hids : q.memberIds.Nodup) (h : q.place prior config = .ok r) :
    q.Placed r := by
  obtain ⟨tolerance, -, hattempt⟩ := place_eq_ok h
  exact placed_of_attempt hids hattempt

/-! ### Failures -/

/-- A failure that ends an escalation is structural; one that it runs out of tolerances with is
not. -/
theorem escalate_eq_error {ceiling : Float} {last : Option AttemptFailure} {tolerances : List Float}
    {failure : BuildFailure} (hlast : ∀ f ∈ last, f.mayRetry = true)
    (h : q.escalate prior ceiling last tolerances = .error failure) :
    (∃ defect tolerance, failure = .placement defect ∧
      q.attempt prior tolerance = .error (.structural defect)) ∨
      ∃ f : Option AttemptFailure, failure = .toleranceExhausted ceiling f ∧
        ∀ g ∈ f, g.mayRetry = true := by
  induction tolerances generalizing last with
  | nil =>
    obtain rfl := Except.error.inj h
    exact Or.inr ⟨last, rfl, hlast⟩
  | cons tolerance rest ih =>
    rw [escalate] at h
    split at h
    · cases h
    · rename_i defect hattempt
      obtain rfl := Except.error.inj h
      exact Or.inl ⟨defect, tolerance, rfl, hattempt⟩
    · rename_i f hnot hattempt
      refine ih (fun g hg => ?_) h
      obtain rfl : f = g := Option.some.inj hg
      cases f with
      | toleranceExceeded => rfl
      | structural defect => exact absurd rfl (hnot defect)

/-- A defect that a placement reports is one that an attempt has failed by. -/
theorem exists_attempt_of_reports {e : Error} {defect : PlacementDefect}
    (h : q.place prior config = .error e) (hreports : e.Reports defect) :
    ∃ tolerance, q.attempt prior tolerance = .error (.structural defect) := by
  unfold place at h
  cases hescalate : q.escalate prior config.ceiling none config.schedule with
  | ok r =>
    rw [hescalate] at h
    cases h
  | error failure =>
    rw [hescalate] at h
    obtain rfl := Except.error.inj h
    rcases escalate_eq_error (by simp) hescalate with
      ⟨reported, tolerance, rfl, hattempt⟩ | ⟨last, rfl, hretry⟩
    · obtain rfl : reported = defect := hreports
      exact ⟨tolerance, hattempt⟩
    · cases last with
      | none => exact hreports.elim
      | some f =>
        cases f with
        | toleranceExceeded => exact hreports.elim
        | structural reported => cases hretry _ rfl

theorem divide_ne_noMembers {weights : List Float} {total capacity : Nat} {node : NodeId} :
    Quota.divide weights total capacity ≠ .error (.noMembers node) := by
  unfold Quota.divide
  dsimp only
  split
  · simp
  · split <;> split <;> simp

/-- Only a plan for no members fails for want of members. -/
theorem plan_eq_noMembers {node : NodeId} (h : q.plan = .error (.noMembers node)) :
    q.members = [] := by
  unfold plan at h
  dsimp only at h
  split at h
  · rename_i hlength
    exact List.length_eq_zero_iff.1 hlength
  · split at h
    · cases h
    · split at h
      · cases h
      · split at h <;> cases h

theorem checkDeviation_ne_structural {total : Nat} {quotas : List Nat} {tolerance : Float}
    {defect : PlacementDefect} :
    q.checkDeviation total quotas tolerance ≠ .error (.structural defect) := by
  unfold checkDeviation
  split
  · split <;> simp
  · simp

/-- An attempt fails at the plan, at the quotas or at the check: once those are settled, nothing
fails. -/
theorem attempt_eq_error (hids : q.memberIds.Nodup) {tolerance : Float} {failure : AttemptFailure}
    (h : q.attempt prior tolerance = .error failure) :
    (∃ defect, q.plan = .error defect ∧ failure = .structural defect) ∨
      ∃ plan, q.plan = .ok plan ∧
        ((∃ defect, q.quotas plan = .error defect ∧ failure = .structural defect) ∨
          ∃ quotas, q.checkDeviation (q.total plan) quotas tolerance = .error failure) := by
  cases hplan : q.plan with
  | error defect =>
    have hfails := attempt_of_plan_eq_error hplan prior tolerance
    exact Or.inl ⟨defect, rfl, Except.error.inj (h.symm.trans hfails)⟩
  | ok plan =>
    refine Or.inr ⟨plan, rfl, ?_⟩
    cases hquotas : q.quotas plan with
    | error defect =>
      have hfails := attempt_of_quotas_eq_error hplan hquotas prior tolerance
      exact Or.inl ⟨defect, rfl, Except.error.inj (h.symm.trans hfails)⟩
    | ok quotas =>
      refine Or.inr ⟨quotas, ?_⟩
      cases hcheck : q.checkDeviation (q.total plan) quotas tolerance with
      | error _ =>
        have hfails := attempt_of_check_eq_error hplan hquotas hcheck prior
        exact congrArg Except.error (Except.error.inj (hfails.symm.trans h))
      | ok _ =>
        obtain ⟨r, hr, -⟩ := attempt_of_checked hids hplan hquotas hcheck prior
        cases h.symm.trans hr

/-- With members, an attempt does not fail for want of them. -/
theorem attempt_ne_noMembers (hids : q.memberIds.Nodup) (hmembers : q.members ≠ [])
    {tolerance : Float} {node : NodeId} :
    q.attempt prior tolerance ≠ .error (.structural (.noMembers node)) := by
  intro h
  rcases attempt_eq_error hids h with
    ⟨defect, hplan, hdefect⟩ | ⟨plan, -, ⟨defect, hquotas, hdefect⟩ | ⟨quotas, hcheck⟩⟩
  · cases hdefect
    exact hmembers (plan_eq_noMembers hplan)
  · cases hdefect
    exact divide_ne_noMembers hquotas
  · exact checkDeviation_ne_structural hcheck

/-- No request with members is told that it has none. -/
theorem not_reports_noMembers (hids : q.memberIds.Nodup) (hmembers : q.members ≠ []) {e : Error}
    (h : q.place prior config = .error e) (node : NodeId) : ¬ e.Reports (.noMembers node) := by
  intro hreports
  obtain ⟨tolerance, hattempt⟩ := exists_attempt_of_reports h hreports
  exact attempt_ne_noMembers hids hmembers hattempt

end PlacementRequest

end ReplicaRing
