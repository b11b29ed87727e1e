import ReplicaRing.Proofs.Placement.Escalation
import ReplicaRing.Proofs.Placement.Repetition
import ReplicaRing.Proofs.Placement.Schedules

/-!
# Tolerances that suffice

Only the check of an attempt looks at the tolerance, and it compares it with one deviation. So a
request either fails by a defect that it has at every tolerance, or the tolerances that suffice for
it are those that are not less than its deviation, and they all give one ring (`attempt_verdict`).

From this follows how an escalation ends along a list of tolerances: at the first one that suffices
(`place_eq_ok_iff`), at once (`place_of_attempt_structural`) or in vain (`place_in_vain`). A
configuration whose schedule ends has such a list, and `place_firstSufficient` says which; where the
schedule does not end, no attempt is ever made.
-/

namespace ReplicaRing

open Binary64

/-! ### Attempts -/

namespace PlacementRequest

variable {q : PlacementRequest} {prior : Option Ring}

theorem ringOf_tolerance {plan : ReplicaCounts} {layers : List Layer} {tolerance other : Float}
    {r : Ring} (h : q.ringOf plan layers tolerance = .ok r) :
    q.ringOf plan layers other = .ok { r with tolerance := other } := by
  unfold ringOf at h ⊢
  obtain ⟨entries, hentries, hring⟩ := bind_eq_ok.1 h
  refine bind_eq_ok.2 ⟨entries, hentries, ?_⟩
  rw [Ring.ofEntries?_tolerance _ _ _ _ _ tolerance other]
  split at hring
  · rename_i hok
    obtain rfl := Except.ok.inj hring
    rw [hok]
    rfl
  · cases hring

/-- With members and quotas there is a deviation that decides the check. -/
theorem exists_checkDeviation {plan : ReplicaCounts} {quotas : List Nat} (total : Nat)
    (h : Settled q plan quotas) :
    ∃ member deviation, ∀ tolerance, q.checkDeviation total quotas tolerance =
      if tolerance < deviation then .error (.toleranceExceeded member deviation tolerance)
      else .ok () := by
  obtain ⟨⟨member, deviation⟩, hworst⟩ : ∃ d, worst? (q.deviations total quotas) = some d := by
    unfold deviations
    cases hmembers : q.members with
    | nil =>
      have hpos := h.fits.pos
      have hle := h.fits.primary_le
      rw [hmembers, List.length_nil] at hle
      omega
    | cons m rest =>
      have hlength := h.length
      rw [hmembers, List.length_cons] at hlength
      cases quotas with
      | nil => cases hlength
      | cons quota quotas => exact ⟨_, rfl⟩
  refine ⟨member, deviation, fun tolerance => ?_⟩
  rw [checkDeviation, hworst]

/-- A request fails at all tolerances alike, or the tolerances from its deviation on suffice for
it and give the same ring. -/
theorem attempt_verdict (hids : q.memberIds.Nodup) (prior : Option Ring) :
    (∃ defect, ∀ tolerance, q.attempt prior tolerance = .error (.structural defect)) ∨
      ∃ (member : NodeId) (deviation : Float) (r : Ring), ∀ tolerance, q.attempt prior tolerance =
        if tolerance < deviation then .error (.toleranceExceeded member deviation tolerance)
        else .ok { r with tolerance := tolerance } := by
  cases hplan : q.plan with
  | error defect => exact Or.inl ⟨defect, attempt_of_plan_eq_error hplan prior⟩
  | ok plan =>
    cases hquotas : q.quotas plan with
    | error defect => exact Or.inl ⟨defect, attempt_of_quotas_eq_error hplan hquotas prior⟩
    | ok quotas =>
      have hsettled := settled_of_eq_ok hids hplan hquotas
      obtain ⟨member, deviation, hcheck⟩ := exists_checkDeviation (q.total plan) hsettled
      -- Any tolerance will do for the ring: a ring only records it.
      obtain ⟨r, hr, -⟩ := hsettled.ringOf_eq_ok (hsettled.layout prior) 0.0
      refine Or.inr ⟨member, deviation, r, fun tolerance => ?_⟩
      have hchecked := hcheck tolerance
      by_cases hlt : tolerance < deviation
      · rw [if_pos hlt] at hchecked ⊢
        exact attempt_of_check_eq_error hplan hquotas hchecked prior
      · rw [if_neg hlt] at hchecked ⊢
        rw [attempt_eq_ringOf hplan hquotas hchecked, ringOf_tolerance hr]
        rfl

/-- What suffices at one tolerance suffices at every coarser one. -/
theorem attempt_of_le (hids : q.memberIds.Nodup) {t t' : Float} {r : Ring} (hle : t ≤ t')
    (h : q.attempt prior t = .ok r) : q.attempt prior t' = .ok { r with tolerance := t' } := by
  rcases attempt_verdict hids prior with ⟨defect, hfails⟩ | ⟨member, deviation, r', hattempt⟩
  · cases (hfails t).symm.trans h
  · by_cases hlt : t < deviation
    · rw [hattempt, if_pos hlt] at h
      cases h
    · rw [hattempt, if_neg hlt] at h
      obtain rfl := Except.ok.inj h
      rw [hattempt, if_neg fun hlt' => hlt (lt_of_le_lt hle hlt')]

theorem attempt_eq_structural (hids : q.memberIds.Nodup) {t : Float} {defect : PlacementDefect}
    (h : q.attempt prior t = .error (.structural defect)) (t' : Float) :
    q.attempt prior t' = .error (.structural defect) := by
  rcases attempt_verdict hids prior with ⟨defect', hfails⟩ | ⟨member, deviation, r, hattempt⟩
  · exact (hfails t').trans ((hfails t).symm.trans h)
  · rw [hattempt] at h
    split at h <;> cases h

/-! ### Escalation -/

/-- The tolerances of a list that are tried: those up to the first one at which an attempt does not
exceed the tolerance. -/
def attempted (q : PlacementRequest) (prior : Option Ring) : List Float → List Float
  | [] => []
  | tolerance :: rest =>
    tolerance ::
      match q.attempt prior tolerance with
      | .ok _ => []
      | .error (.structural _) => []
      | .error (.toleranceExceeded ..) => q.attempted prior rest

/-- The tolerances that are not tried have no part in the outcome. -/
theorem escalate_attempted (ceiling : Float) (last : Option AttemptFailure)
    (tolerances : List Float) :
    q.escalate prior ceiling last (q.attempted prior tolerances) =
      q.escalate prior ceiling last tolerances := by
  induction tolerances generalizing last with
  | nil => rfl
  | cons tolerance rest ih =>
    rw [attempted, escalate, escalate]
    cases hattempt : q.attempt prior tolerance with
    | ok r => rfl
    | error failure =>
      cases failure with
      | structural defect => rfl
      | toleranceExceeded member deviation exceeded => exact ih _

section

variable {config : BuildConfig} {member : NodeId} {deviation t : Float}
  {earlier later : List Float} {r : Ring}

theorem escalate_append (ceiling : Float) (last : Option AttemptFailure) (later : List Float)
    (h : ∀ t ∈ earlier, q.attempt prior t = .error (.toleranceExceeded member deviation t)) :
    ∃ last', q.escalate prior ceiling last (earlier ++ later) =
      q.escalate prior ceiling last' later := by
  induction earlier generalizing last with
  | nil => exact ⟨last, rfl⟩
  | cons t rest ih =>
    rw [List.cons_append, escalate, h t (List.mem_cons_self ..)]
    exact ih _ fun t' ht' => h t' (List.mem_cons_of_mem _ ht')

theorem attempted_append (later : List Float)
    (h : ∀ t ∈ earlier, q.attempt prior t = .error (.toleranceExceeded member deviation t)) :
    q.attempted prior (earlier ++ later) = earlier ++ q.attempted prior later := by
  induction earlier with
  | nil => rfl
  | cons t rest ih =>
    rw [List.cons_append, attempted, h t (List.mem_cons_self ..)]
    exact congrArg _ (ih fun t' ht' => h t' (List.mem_cons_of_mem _ ht'))

theorem place_of_sufficient (hschedule : config.schedule = earlier ++ t :: later)
    (hearlier : ∀ t ∈ earlier, q.attempt prior t = .error (.toleranceExceeded member deviation t))
    (ht : q.attempt prior t = .ok r) :
    q.place prior config = .ok r ∧ q.attempted prior config.schedule = earlier ++ [t] := by
  obtain ⟨last, hlast⟩ := escalate_append config.ceiling none (t :: later) hearlier
  constructor
  · rw [place, hschedule, hlast, escalate, ht]
    rfl
  · rw [hschedule, attempted_append _ hearlier, attempted, ht]

theorem place_of_structural {defect : PlacementDefect} (hschedule : config.schedule = t :: later)
    (ht : q.attempt prior t = .error (.structural defect)) :
    q.place prior config = .error (.structuralBuild q.node (.placement defect)) ∧
      q.attempted prior config.schedule = [t] := by
  constructor
  · rw [place, hschedule, escalate, ht]
    rfl
  · rw [hschedule, attempted, ht]

theorem place_of_insufficient (hschedule : config.schedule = earlier ++ [t])
    (h : ∀ t ∈ config.schedule,
      q.attempt prior t = .error (.toleranceExceeded member deviation t)) :
    q.place prior config = .error (.structuralBuild q.node
        (.toleranceExhausted config.ceiling (some (.toleranceExceeded member deviation t)))) ∧
      q.attempted prior config.schedule = config.schedule := by
  constructor
  · rw [hschedule] at h
    have ht := h t (List.mem_append_right _ (List.mem_singleton_self t))
    obtain ⟨last, hlast⟩ := escalate_append config.ceiling none [t] fun t' ht' =>
      h t' (List.mem_append_left _ ht')
    rw [place, hschedule, hlast, escalate, ht]
    rfl
  · have hall := attempted_append [] h
    rwa [List.append_nil, attempted, List.append_nil] at hall

end

/-- If any tolerance of a list suffices, all before the first one that does are exceeded by the same
member and deviation. -/
theorem exists_first_sufficient (hids : q.memberIds.Nodup) {ts : List Float} {t : Float} {r : Ring}
    (hmem : t ∈ ts) (ht : q.attempt prior t = .ok r) :
    ∃ (earlier : List Float) (first : Float) (later : List Float) (member : NodeId)
      (deviation : Float) (r' : Ring), ts = earlier ++ first :: later ∧
      (∀ t' ∈ earlier, q.attempt prior t' = .error (.toleranceExceeded member deviation t')) ∧
      q.attempt prior first = .ok r' := by
  rcases attempt_verdict hids prior with ⟨defect, hfails⟩ | ⟨member, deviation, r', hattempt⟩
  · cases (hfails t).symm.trans ht
  · have hsuffices : ¬t < deviation := by
      intro hlt
      rw [hattempt, if_pos hlt] at ht
      cases ht
    cases hfirst : ts.find? fun t => ¬t < deviation with
    | none => exact absurd hsuffices (by simpa using List.find?_eq_none.1 hfirst t hmem)
    | some first =>
      obtain ⟨hnot, earlier, later, hsplit, hearlier⟩ := List.find?_eq_some_iff_append.1 hfirst
      refine ⟨earlier, first, later, member, deviation, { r' with tolerance := first }, hsplit,
        fun t' ht' => ?_, ?_⟩
      · have hlt : t' < deviation := by simpa using hearlier t' ht'
        rw [hattempt, if_pos hlt]
      · rw [hattempt, if_neg (of_decide_eq_true hnot)]

section

variable {config : BuildConfig} {r : Ring}

/-- A ring that is placed is that of the first tolerance that suffices. -/
theorem place_eq_ok_iff (hids : q.memberIds.Nodup) : q.place prior config = .ok r ↔
    ∃ (earlier : List Float) (t : Float) (later : List Float) (member : NodeId)
      (deviation : Float), config.schedule = earlier ++ t :: later ∧
      (∀ t' ∈ earlier, q.attempt prior t' = .error (.toleranceExceeded member deviation t')) ∧
      q.attempt prior t = .ok r ∧ q.attempted prior config.schedule = earlier ++ [t] := by
  constructor
  · intro h
    obtain ⟨t, hmem, ht⟩ := place_eq_ok h
    obtain ⟨earlier, first, later, member, deviation, r', hsplit, hearlier, hr'⟩ :=
      exists_first_sufficient hids hmem ht
    obtain ⟨hplace, hattempted⟩ := place_of_sufficient hsplit hearlier hr'
    obtain rfl : r' = r := Except.ok.inj (hplace.symm.trans h)
    exact ⟨earlier, first, later, member, deviation, hsplit, hearlier, hr', hattempted⟩
  · rintro ⟨earlier, t, later, member, deviation, hsplit, hearlier, hr, -⟩
    exact (place_of_sufficient hsplit hearlier hr).1

theorem exists_place_eq_ok_iff (hids : q.memberIds.Nodup) :
    (∃ r, q.place prior config = .ok r) ↔
      ∃ t ∈ config.schedule, ∃ r, q.attempt prior t = .ok r := by
  constructor
  · rintro ⟨r, h⟩
    obtain ⟨t, hmem, ht⟩ := place_eq_ok h
    exact ⟨t, hmem, r, ht⟩
  · rintro ⟨t, hmem, r, ht⟩
    obtain ⟨earlier, first, later, member, deviation, r', hsplit, hearlier, hr'⟩ :=
      exists_first_sufficient hids hmem ht
    exact ⟨r', (place_of_sufficient hsplit hearlier hr').1⟩

/-- A structural defect shows at the first tolerance, and no other is tried. -/
theorem place_of_attempt_structural (hids : q.memberIds.Nodup) {first t : Float}
    {later : List Float} {defect : PlacementDefect} (hschedule : config.schedule = first :: later)
    (h : q.attempt prior t = .error (.structural defect)) :
    q.attempt prior first = .error (.structural defect) ∧
      q.attempted prior config.schedule = [first] ∧
      q.place prior config = .error (.structuralBuild q.node (.placement defect)) := by
  have hfirst := attempt_eq_structural hids h first
  obtain ⟨hplace, hattempted⟩ := place_of_structural hschedule hfirst
  exact ⟨hfirst, hattempted, hplace⟩

/-- Without a success and without a structural defect, all tolerances are tried and exceeded by one
member and deviation. -/
theorem place_in_vain (hids : q.memberIds.Nodup) (hschedule : config.schedule ≠ [])
    (hnone : ∀ t ∈ config.schedule, ∀ r, q.attempt prior t ≠ .ok r)
    (hsound : ∀ t ∈ config.schedule, ∀ defect, q.attempt prior t ≠ .error (.structural defect)) :
    ∃ (earlier : List Float) (t : Float) (member : NodeId) (deviation : Float),
      config.schedule = earlier ++ [t] ∧
      (∀ t' ∈ config.schedule,
        q.attempt prior t' = .error (.toleranceExceeded member deviation t')) ∧
      q.attempted prior config.schedule = config.schedule ∧
      q.place prior config = .error (.structuralBuild q.node (.toleranceExhausted
        config.ceiling (some (.toleranceExceeded member deviation t)))) := by
  have hsplit := (List.dropLast_append_getLast hschedule).symm
  rcases attempt_verdict hids prior with ⟨defect, hfails⟩ | ⟨member, deviation, r, hattempt⟩
  · exact absurd (hfails _) (hsound _ (List.getLast_mem hschedule) defect)
  · have hall : ∀ t ∈ config.schedule,
        q.attempt prior t = .error (.toleranceExceeded member deviation t) := by
      intro t hmem
      have hverdict := hattempt t
      split at hverdict
      · exact hverdict
      · exact absurd hverdict (hnone t hmem _)
    obtain ⟨hplace, hattempted⟩ := place_of_insufficient hsplit hall
    exact ⟨_, _, member, deviation, hsplit, hall, hattempted, hplace⟩

end

/-- A schedule whose third tolerance is the first that suffices for ten coordinates. -/
def fineSchedule : BuildConfig :=
  { BuildConfig.standard with initialTolerance := 0.001 }

end PlacementRequest

end ReplicaRing
