import ReplicaRing.Proofs.Layers.Completions
import ReplicaRing.Proofs.Placement.Moves

/-!
# When a placement starts anew

A placement gives an earlier ring up when its layers, once nobody holds more than its quota, cannot
be filled. `adjustedLayers?_completes` says what that does and does not mean. Layers that come out
are always a completion. If none come out, some member cannot be served any more at its turn. Where
a turn can take nothing that others need, because there is one layer, or one for each member, or one
member only is below its quota, nothing is given up that could be completed.

In general it can: members take offsets by their place in the list and from the first layer on, and
`exists_completion_missed` is a ring of three coordinates in which the first member so takes what
the second one would have needed.
-/

namespace ReplicaRing.PlacementRequest

open Layer

variable {q : PlacementRequest} {plan : ReplicaCounts} {quotas : List Nat} {prior : Ring}

/-- The layers of an earlier ring after every member has given up what it holds above its quota. -/
def trimmed (q : PlacementRequest) (prior : Ring) (replicas : Nat) (quotas : List Nat) :
    List Layer :=
  release quotas (layersOf q.memberIds prior replicas)

/-- What trimming leaves: the layers cover the region, nobody owns an offset twice, only members own
anything, and none of them more than its quota. -/
theorem trimmed_spec (hsettled : Settled q plan quotas) (hregion : prior.region = q.region)
    (hentries : ∀ e ∈ prior.entries.toList, e.owners.primary.length = plan.primary) :
    (∀ layer ∈ q.trimmed prior plan.primary quotas, SpansFrom 0 q.region.size layer) ∧
      Distinct (q.trimmed prior plan.primary quotas) ∧
      (q.trimmed prior plan.primary quotas).length = plan.primary ∧
      (∀ o < q.region.size, ∀ m, some m ∈ column (q.trimmed prior plan.primary quotas) o →
        m < quotas.length) ∧
      ∀ m quota, quotas[m]? = some quota →
        holding (q.trimmed prior plan.primary quotas) m ≤ quota := by
  have hspans : ∀ layer ∈ layersOf q.memberIds prior plan.primary,
      SpansFrom 0 q.region.size layer := by
    rw [← hregion]
    exact spansFrom_layersOf
  obtain ⟨hreleased, hheld⟩ := release_spec hspans quotas
  have hcount := count_le_of_loss hreleased
  refine ⟨spans_of_forall₂ hreleased, fun o m => ?_, ?_, fun o ho m hm => ?_, fun m quota hm => ?_⟩
  · exact Nat.le_trans (hcount o m) (distinct_layersOf hsettled.ids hentries o m)
  · exact hreleased.length_eq.symm.trans length_layersOf
  · have hbefore := Nat.lt_of_lt_of_le (List.count_pos_iff.2 hm) (hcount o m)
    rw [hsettled.length, ← length_memberIds]
    exact lt_of_mem_column_layersOf hsettled.ids hentries (by rwa [hregion])
      (List.count_pos_iff.1 hbefore)
  · show holding (release quotas (layersOf q.memberIds prior plan.primary)) m ≤ quota
    rw [hheld m quota hm]
    exact Nat.min_le_right _ _

/-- A placement that starts from an earlier ring of the same shape adjusts its trimmed layers or
gives them up.

* Layers that come out complete the trimmed ones.
* They are given up exactly if, once the members before it have been served, some member cannot
  reach its quota without owning an offset twice, however the offsets left over are handed out.
* If at most one member is below its quota, layers that can be completed are not given up.
* With one primary owner everywhere, or with all members as primary owners, none are.

Layers that are given up play no part: the attempt is the one that starts from nothing. -/
theorem adjustedLayers?_completes (hids : q.memberIds.Nodup) (hplan : q.plan = .ok plan)
    (hquotas : q.quotas plan = .ok quotas) (hregion : prior.region = q.region)
    (hreplicas : prior.primaryReplicas = plan.primary)
    (hentries : ∀ e ∈ prior.entries.toList, e.owners.primary.length = plan.primary) :
    let before := q.trimmed prior plan.primary quotas
    let adjusted := q.adjustedLayers? prior plan.primary quotas
    (∀ after, adjusted = some after → Completes q.region.size quotas before after) ∧
      (adjusted = none ↔ ∃ i quota served, quotas[i]? = some quota ∧
        fill? (quotas.take i) before = some served ∧
        ¬ CanServe q.region.size i quota served) ∧
      ((∀ i j, Below 0 quotas before i → Below 0 quotas before j → i = j) →
        (adjusted ≠ none ↔ ∃ after, Completes q.region.size quotas before after)) ∧
      (plan.primary = 1 ∨ plan.primary = q.members.length → adjusted ≠ none) ∧
      (adjusted = none →
        ∀ tolerance, q.attempt (some prior) tolerance = q.attempt none tolerance) := by
  intro before adjusted
  have hsettled := settled_of_eq_ok hids hplan hquotas
  have hadjusted : adjusted = fill? quotas before := adjustedLayers?_eq hregion hreplicas hentries
  obtain ⟨hspans, hdistinct, hlength, howners, hcapped⟩ := trimmed_spec hsettled hregion hentries
  have hsound : ∀ after, fill? quotas before = some after →
      Completes q.region.size quotas before after := fun after =>
    completes_of_fill? hspans hdistinct hcapped
  rw [hadjusted]
  refine ⟨hsound, fill?_eq_none_iff hspans hdistinct, fun hone => ⟨fun hsome => ?_, ?_⟩, ?_, ?_⟩
  · obtain ⟨after, hafter⟩ := Option.ne_none_iff_exists'.1 hsome
    exact ⟨after, hsound after hafter⟩
  · rintro ⟨after, hafter⟩
    exact fill?_ne_none_of_completes hspans hdistinct hone hafter
  · rintro (hone | hall)
    · exact hsettled.fill?_ne_none hregion hentries hone
    · exact fill?_ne_none_of_length hspans hdistinct
        (hlength.trans (hall.trans hsettled.length.symm)) howners hsettled.le
  · intro hnone tolerance
    have hlayers := layers_eq_none (hadjusted.trans hnone)
    rcases attempt_cases q tolerance with
      ⟨failure, hfails⟩ | ⟨plan', quotas', hplan', hquotas', hcheck⟩
    · rw [hfails, hfails]
    · obtain rfl : plan' = plan := Except.ok.inj (hplan'.symm.trans hplan)
      obtain rfl : quotas' = quotas := Except.ok.inj (hquotas'.symm.trans hquotas)
      rw [attempt_eq_ringOf hplan hquotas hcheck, attempt_eq_ringOf hplan hquotas hcheck, hlayers]

theorem adjustedLayers?_completes_fourMembers :
    fourMembers.memberIds.Nodup ∧ fourMembers.plan = .ok ⟨2, 1, true⟩ ∧
      fourMembers.quotas ⟨2, 1, true⟩ = .ok [5, 5, 5, 5] ∧
      fourMembersPrior.region = fourMembers.region ∧
      ∃ after, fourMembers.adjustedLayers? fourMembersPrior 2 [5, 5, 5, 5] = some after ∧
        Completes 10 [5, 5, 5, 5] (fourMembers.trimmed fourMembersPrior 2 [5, 5, 5, 5]) after := by
  have hids : fourMembers.memberIds.Nodup := by decide
  have hplan : fourMembers.plan = .ok ⟨2, 1, true⟩ := rfl
  have hquotas : fourMembers.quotas ⟨2, 1, true⟩ = .ok [5, 5, 5, 5] := by decide +kernel
  have hregion : fourMembersPrior.region = fourMembers.region := rfl
  obtain ⟨hsound, -⟩ := adjustedLayers?_completes hids hplan hquotas hregion rfl (by decide)
  have hsome : (fourMembers.adjustedLayers? fourMembersPrior 2 [5, 5, 5, 5]).isSome = true := by
    decide +kernel
  obtain ⟨after, hafter⟩ := Option.isSome_iff_exists.1 hsome
  exact ⟨hids, hplan, hquotas, hregion, after, hafter, hsound after hafter⟩

/-! ### A completion that filling misses -/

/-- Three members, two of which own each of three coordinates. -/
def threeOnThree : PlacementRequest where
  node := "parent"
  policy := "policy"
  region := ⟨0, 2, by decide, by decide⟩
  members := [⟨"a", 1.0⟩, ⟨"b", 1.0⟩, ⟨"d", 1.0⟩]
  primaryReplicas := 2
  secondaryReplicas := 0

/-- A ring of the three and of `x`, which has left since: `a` and `b` lack one coordinate each. -/
def threeOnThreePrior : Ring where
  node := "parent"
  policy := "policy"
  region := ⟨0, 2, by decide, by decide⟩
  primaryReplicas := 2
  secondaryReplicas := 0
  tolerance := 0.5
  entries := #[⟨⟨0, 0, by decide, by decide⟩, ["d", "x"], []⟩,
    ⟨⟨1, 1, by decide, by decide⟩, ["b", "x"], []⟩,
    ⟨⟨2, 2, by decide, by decide⟩, ["a", "d"], []⟩]
  tiles := by decide
  merged := by decide
  hasPrimaries := by decide

/-- The places of `x` are given to `b` at the coordinate `0` and to `a` at `1`. -/
def threeOnThreeCompleted : List Layer :=
  [[⟨0, 1, some 2⟩, ⟨1, 1, some 1⟩, ⟨2, 1, some 0⟩],
    [⟨0, 1, some 1⟩, ⟨1, 1, some 0⟩, ⟨2, 1, some 2⟩]]

/-- Giving `a` the coordinate `0`, which it comes to first, leaves `b` only the coordinate `1`,
which it owns already: layers are given up that can be completed. -/
theorem exists_completion_missed :
    threeOnThree.memberIds.Nodup ∧ threeOnThree.plan = .ok ⟨2, 0, true⟩ ∧
      threeOnThree.quotas ⟨2, 0, true⟩ = .ok [2, 2, 2] ∧
      threeOnThreePrior.region = threeOnThree.region ∧ threeOnThreePrior.primaryReplicas = 2 ∧
      (∀ e ∈ threeOnThreePrior.entries.toList, e.owners.primary.length = 2) ∧
      Completes 3 [2, 2, 2] (threeOnThree.trimmed threeOnThreePrior 2 [2, 2, 2])
        threeOnThreeCompleted ∧
      threeOnThree.adjustedLayers? threeOnThreePrior 2 [2, 2, 2] = none := by
  have htrimmed : threeOnThree.trimmed threeOnThreePrior 2 [2, 2, 2] =
      [[⟨0, 1, some 2⟩, ⟨1, 1, some 1⟩, ⟨2, 1, some 0⟩], [⟨0, 2, none⟩, ⟨2, 1, some 2⟩]] := by
    decide +kernel
  have hspans : ∀ layer ∈ threeOnThreeCompleted, SpansFrom 0 3 layer := by
    simp [threeOnThreeCompleted, SpansFrom, Span.stop]
  have hdistinct : Distinct threeOnThreeCompleted := by
    refine distinct_of_lt hspans fun o ho m => ?_
    have hnodup : ∀ o < 3, (column threeOnThreeCompleted o).Nodup := by decide
    exact List.nodup_iff_count_le_one.1 (hnodup o ho) _
  have hheld : ∀ m quota, [2, 2, 2][m]? = some quota →
      holding threeOnThreeCompleted m = quota := by
    intro m quota hm
    obtain ⟨hlt, -⟩ := List.getElem?_eq_some_iff.1 hm
    have hall : ∀ m < 3, holding threeOnThreeCompleted m = 2 ∧ [2, 2, 2][m]? = some 2 := by decide
    rw [(hall m hlt).1]
    exact Option.some.inj ((hall m hlt).2.symm.trans hm)
  refine ⟨by decide, rfl, by decide +kernel, rfl, rfl, by decide, ?_, by decide +kernel⟩
  rw [htrimmed]
  refine ⟨⟨rfl, hspans, hdistinct, hheld⟩, .cons ⟨hspans _ (by decide), fun _ => .keep _⟩
    (.cons ⟨hspans _ (by decide), fun o => ?_⟩ .nil)⟩
  -- Only the coordinates `0` and `1` of the second layer are handed out.
  match o with
  | 0 => exact .gain 1 (by decide)
  | 1 => exact .gain 0 (by decide)
  | o + 2 =>
    have hsame : ownerAt? [⟨0, 2, none⟩, ⟨2, 1, some 2⟩] (o + 2) =
        ownerAt? [⟨0, 1, some 1⟩, ⟨1, 1, some 0⟩, ⟨2, 1, some 2⟩] (o + 2) := by
      simp [ownerAt?_cons, Span.stop]
    rw [hsame]
    exact .keep _

end ReplicaRing.PlacementRequest
