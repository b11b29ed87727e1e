import ReplicaRing.Proofs.Placement.Entries
import ReplicaRing.Proofs.Quotas

/-!
# The outcome of an attempt

An attempt fails before it looks at an earlier ring, or the layout succeeds for every earlier ring
(`attempt_cases`, `attempt_of_checked`). The ring that comes out has the owners of a layout of the
quotas (`Realises`), and from that follow the shape of its entries (`attempt_shape`) and what each
member owns (`attempt_sizes`).
-/

namespace ReplicaRing.PlacementRequest

open Layer

/-- The quotas of a plan give each member at most the whole region and use up all units. -/
theorem settled_of_eq_ok {q : PlacementRequest} {plan : ReplicaCounts} {quotas : List Nat}
    (hids : q.memberIds.Nodup) (hplan : q.plan = .ok plan) (hquotas : q.quotas plan = .ok quotas) :
    Settled q plan quotas := by
  obtain ⟨⟨hlength, hle⟩, hsum⟩ := Quota.divide_eq_ok hquotas
  rw [List.length_map] at hlength
  exact ⟨hids, (plan_eq_ok hplan).1, hlength, hle, hsum⟩

/-! ### The stages of an attempt -/

section

variable {q : PlacementRequest} {plan : ReplicaCounts} {quotas : List Nat} {tolerance : Float}
  {defect : PlacementDefect}

theorem attempt_of_plan_eq_error (hplan : q.plan = .error defect) (prior : Option Ring)
    (tolerance : Float) : q.attempt prior tolerance = .error (.structural defect) := by
  unfold attempt
  rw [hplan]
  rfl

theorem attempt_of_quotas_eq_error (hplan : q.plan = .ok plan)
    (hquotas : q.quotas plan = .error defect) (prior : Option Ring) (tolerance : Float) :
    q.attempt prior tolerance = .error (.structural defect) := by
  unfold attempt
  rw [hplan]
  dsimp only [Except.mapError, bind, Except.bind]
  rw [hquotas]

theorem attempt_of_check_eq_error {failure : AttemptFailure} (hplan : q.plan = .ok plan)
    (hquotas : q.quotas plan = .ok quotas)
    (hcheck : q.checkDeviation (q.total plan) quotas tolerance = .error failure)
    (prior : Option Ring) : q.attempt prior tolerance = .error failure := by
  unfold attempt
  rw [hplan]
  dsimp only [Except.mapError, bind, Except.bind]
  rw [hquotas]
  dsimp only
  rw [hcheck]

/-- An attempt that comes to the layout gives the ring of the layers. -/
theorem attempt_eq_ringOf (hplan : q.plan = .ok plan) (hquotas : q.quotas plan = .ok quotas)
    (hcheck : q.checkDeviation (q.total plan) quotas tolerance = .ok ()) (prior : Option Ring) :
    q.attempt prior tolerance =
      (q.ringOf plan (q.layers prior plan.primary quotas) tolerance).mapError .structural := by
  unfold attempt
  rw [hplan]
  dsimp only [Except.mapError, bind, Except.bind]
  rw [hquotas]
  dsimp only
  rw [hcheck]

end

/-- An attempt fails in the same way for every earlier ring, or it comes to the layout. -/
theorem attempt_cases (q : PlacementRequest) (tolerance : Float) :
    (∃ failure, ∀ prior, q.attempt prior tolerance = .error failure) ∨
      ∃ plan quotas, q.plan = .ok plan ∧ q.quotas plan = .ok quotas ∧
        q.checkDeviation (q.total plan) quotas tolerance = .ok () := by
  cases hplan : q.plan with
  | error defect => exact Or.inl ⟨_, fun prior => attempt_of_plan_eq_error hplan prior tolerance⟩
  | ok plan =>
    cases hquotas : q.quotas plan with
    | error defect =>
      exact Or.inl ⟨_, fun prior => attempt_of_quotas_eq_error hplan hquotas prior tolerance⟩
    | ok quotas =>
      cases hcheck : q.checkDeviation (q.total plan) quotas tolerance with
      | error failure => exact Or.inl ⟨_, attempt_of_check_eq_error hplan hquotas hcheck⟩
      | ok _ => exact Or.inr ⟨plan, quotas, rfl, hquotas, hcheck⟩

/-- A ring gives each coordinate the owners of some layers, which lay out the quotas. -/
structure Realises (q : PlacementRequest) (plan : ReplicaCounts) (quotas : List Nat)
    (layers : List Layer) (r : Ring) : Prop where
  layout : Layout q.region.size plan.primary quotas layers
  region : r.region = q.region
  assigned : ∀ c ∈ q.region, Run.valueAt? r.entries.toList c = some (q.assigned plan layers c)

theorem attempt_of_checked {q : PlacementRequest} {plan : ReplicaCounts} {quotas : List Nat}
    {tolerance : Float} (hids : q.memberIds.Nodup) (hplan : q.plan = .ok plan)
    (hquotas : q.quotas plan = .ok quotas)
    (hcheck : q.checkDeviation (q.total plan) quotas tolerance = .ok ()) (prior : Option Ring) :
    ∃ r, q.attempt prior tolerance = .ok r ∧
      Realises q plan quotas (q.layers prior plan.primary quotas) r := by
  have hsettled := settled_of_eq_ok hids hplan hquotas
  have hlayout := hsettled.layout prior
  obtain ⟨r, hr, hregion, hassigned⟩ := hsettled.ringOf_eq_ok hlayout tolerance
  refine ⟨r, ?_, hlayout, hregion, hassigned⟩
  rw [attempt_eq_ringOf hplan hquotas hcheck, hr]
  rfl

/-- A ring that comes out of an attempt has the owners of the layers of its quotas. -/
theorem attempt_eq_ok {q : PlacementRequest} {tolerance : Float} {prior : Option Ring} {r : Ring}
    (hids : q.memberIds.Nodup) (h : q.attempt prior tolerance = .ok r) :
    ∃ plan quotas, q.plan = .ok plan ∧ q.quotas plan = .ok quotas ∧
      q.checkDeviation (q.total plan) quotas tolerance = .ok () ∧
      Realises q plan quotas (q.layers prior plan.primary quotas) r := by
  rcases attempt_cases q tolerance with ⟨failure, hfailure⟩ | ⟨plan, quotas, hplan, hquotas, hcheck⟩
  · cases (hfailure prior).symm.trans h
  · obtain ⟨r', hr', hrealises⟩ := attempt_of_checked hids hplan hquotas hcheck prior
    obtain rfl := Except.ok.inj (hr'.symm.trans h)
    exact ⟨plan, quotas, hplan, hquotas, hcheck, hrealises⟩

namespace Realises

variable {q : PlacementRequest} {plan : ReplicaCounts} {quotas : List Nat} {layers : List Layer}
  {r : Ring}

theorem ownersAt_eq (h : Realises q plan quotas layers r) {o : Nat} (ho : o < q.region.size) :
    r.ownersAt (q.region.first + o) .primary = q.names (owners layers o) := by
  rw [r.ownersAt_of_valueAt? (h.assigned _ (Region.first_add_mem.2 ho)), Owners.inMode_primary,
    assigned_first_add, ownersOf]

/-- Every entry has the owners that the layers give its first coordinate. -/
theorem soundOwners (h : Realises q plan quotas layers r) (hsettled : Settled q plan quotas)
    {e : Entry} (he : e ∈ r.entries.toList) : SoundOwners q plan e.owners := by
  have hfirst : e.region.first ∈ e.region := ⟨Nat.le_refl _, e.region.first_le_last⟩
  have hbounds := r.tiles.bounds he
  have hle := e.region.first_le_last
  have hmem : e.region.first ∈ q.region := by
    rw [← h.region, Region.mem_iff]
    omega
  have hvalue := r.tiles.valueAt?_of_mem he hfirst
  rw [h.assigned _ hmem] at hvalue
  have howners : q.assigned plan layers e.region.first = e.owners := Option.some.inj hvalue
  rw [← howners]
  exact hsettled.soundOwners_assigned h.layout hmem

/-- What a member owns in the ring is its quota. -/
theorem sizeOwnedBy_eq (h : Realises q plan quotas layers r) (hsettled : Settled q plan quotas)
    {m : Nat} {id : NodeId} (hm : q.memberIds[m]? = some id) :
    quotas[m]? = some (r.sizeOwnedBy id .primary) := by
  have hlt : m < quotas.length := by
    rw [hsettled.length, ← length_memberIds]
    exact (List.getElem?_eq_some_iff.1 hm).1
  have hquota := List.getElem?_eq_getElem hlt
  rw [hquota, ← h.layout.held m _ hquota, h.layout.holding_eq hsettled.sum, r.sizeOwnedBy_eq_sum,
    h.region]
  refine congrArg some (Finset.sum_congr rfl fun o ho => ?_)
  rw [h.ownersAt_eq (Finset.mem_range.1 ho)]
  simp only [mem_names_iff hsettled.ids hm]

/-- Nobody but the members owns anything. -/
theorem sizeOwnedBy_eq_zero (h : Realises q plan quotas layers r) {id : NodeId}
    (hid : id ∉ q.memberIds) : r.sizeOwnedBy id .primary = 0 := by
  rw [r.sizeOwnedBy_eq_sum, h.region]
  refine Finset.sum_eq_zero fun o ho => ?_
  rw [h.ownersAt_eq (Finset.mem_range.1 ho), if_neg]
  exact fun hmem => hid (mem_memberIds_of_mem_names hmem)

theorem map_sizeOwnedBy (h : Realises q plan quotas layers r) (hsettled : Settled q plan quotas) :
    q.memberIds.map (r.sizeOwnedBy · .primary) = quotas := by
  refine List.ext_getElem? fun m => ?_
  rw [List.getElem?_map]
  cases hm : q.memberIds[m]? with
  | none =>
    rw [List.getElem?_eq_none_iff, length_memberIds, ← hsettled.length] at hm
    exact (List.getElem?_eq_none hm).symm
  | some id => exact (h.sizeOwnedBy_eq hsettled hm).symm

/-- Two rings of the same quotas give every node the same. -/
theorem sizeOwnedBy_congr {layers' : List Layer} {r' : Ring} (h : Realises q plan quotas layers r)
    (h' : Realises q plan quotas layers' r') (hsettled : Settled q plan quotas) (id : NodeId) :
    r.sizeOwnedBy id .primary = r'.sizeOwnedBy id .primary := by
  by_cases hid : id ∈ q.memberIds
  · have hsame := (h.map_sizeOwnedBy hsettled).trans (h'.map_sizeOwnedBy hsettled).symm
    exact List.map_inj_left.1 hsame id hid
  · rw [h.sizeOwnedBy_eq_zero hid, h'.sizeOwnedBy_eq_zero hid]

end Realises

/-! ### Shape and sizes -/

/-- The shape of every ring that comes out of an attempt, whatever the earlier ring: its entries
tile the region, neighbours differ, and each lists as many different members as its plan says in
both roles, the same one in both only when all members are primary owners. -/
theorem attempt_shape {q : PlacementRequest} (hids : q.memberIds.Nodup) {prior : Option Ring}
    {tolerance : Float} {r : Ring} (h : q.attempt prior tolerance = .ok r) :
    let n := q.members.length
    let p := min q.primaryReplicas n
    let s := if p < n then min q.secondaryReplicas (n - p) else min q.secondaryReplicas n
    Run.Tiles q.region r.entries.toList ∧
      r.entries.toList.IsChain (fun a b => a.owners ≠ b.owners) ∧
      ∀ e ∈ r.entries.toList,
        e.owners.primary.length = p ∧ e.owners.primary.Nodup ∧
        e.owners.secondary.length = s ∧ e.owners.secondary.Nodup ∧
        (∀ id ∈ e.owners.every, id ∈ q.memberIds) ∧
        (p < n → ∀ id ∈ e.owners.primary, id ∉ e.owners.secondary) := by
  obtain ⟨plan, quotas, hplan, hquotas, -, hrealises⟩ := attempt_eq_ok hids h
  have hsettled := settled_of_eq_ok hids hplan hquotas
  obtain ⟨-, hprimary, hsecondary, hdisjoint⟩ := plan_eq_ok hplan
  intro n p s
  have htiles := r.tiles
  rw [hrealises.region] at htiles
  refine ⟨htiles, r.tiles.isChain_of_merged r.merged, fun e he => ?_⟩
  have hsound := hrealises.soundOwners hsettled he
  have hp : plan.primary = p := hprimary
  have hs : plan.secondary = s := by
    rw [hsecondary, hp]
  refine ⟨hsound.length_primary.trans hp, hsound.nodup_primary, hsound.length_secondary.trans hs,
    hsound.nodup_secondary, hsound.members, fun hlt => hsound.disjoint (hdisjoint.2 ?_)⟩
  rwa [hp]

/-- Four members of weight 1 on ten coordinates, with two primary owners and a secondary one. -/
def fourMembers : PlacementRequest where
  node := "rack"
  policy := "standard"
  region := ⟨0, 9, by decide, by decide⟩
  members := [⟨"a", 1.0⟩, ⟨"b", 1.0⟩, ⟨"c", 1.0⟩, ⟨"d", 1.0⟩]
  primaryReplicas := 2
  secondaryReplicas := 1

/-- A ring of three of the members and one that has left since. -/
def fourMembersPrior : Ring where
  node := "rack"
  policy := "standard"
  region := ⟨0, 9, by decide, by decide⟩
  primaryReplicas := 2
  secondaryReplicas := 1
  tolerance := 1e-6
  entries := #[⟨⟨0, 5, by decide, by decide⟩, ["a", "e"], ["b"]⟩,
    ⟨⟨6, 9, by decide, by decide⟩, ["b", "c"], ["a"]⟩]
  tiles := by decide
  merged := by decide
  hasPrimaries := by decide

theorem attempt_shape_fourMembers :
    ∃ r, fourMembers.attempt (some fourMembersPrior) 0.5 = .ok r ∧
      Run.Tiles fourMembers.region r.entries.toList ∧
      ∀ e ∈ r.entries.toList, e.owners.primary.length = 2 ∧ e.owners.secondary.length = 1 := by
  have hok : (fourMembers.attempt (some fourMembersPrior) 0.5).toOption.isSome = true := by
    decide +kernel
  cases hr : fourMembers.attempt (some fourMembersPrior) 0.5 with
  | error _ =>
    rw [hr] at hok
    cases hok
  | ok r =>
    obtain ⟨htiles, -, hentries⟩ := attempt_shape (by decide) hr
    refine ⟨r, rfl, htiles, fun e he => ?_⟩
    obtain ⟨hprimary, -, hsecondary, -⟩ := hentries e he
    exact ⟨hprimary, hsecondary⟩

/-- Once the quotas are settled and within the tolerance, the layout never fails, whatever the
earlier ring, and every member owns exactly its quota of at most the whole region. So an earlier
ring changes neither whether an attempt succeeds, nor how it fails, nor what any node owns. -/
theorem attempt_sizes {q : PlacementRequest} (hids : q.memberIds.Nodup) (tolerance : Float) :
    (∀ plan quotas, q.plan = .ok plan → q.quotas plan = .ok quotas →
      q.checkDeviation (q.total plan) quotas tolerance = .ok () →
      (∀ quota ∈ quotas, quota ≤ q.region.size) ∧ sumOf quotas = plan.primary * q.region.size ∧
        ∀ prior, ∃ r, q.attempt prior tolerance = .ok r ∧
          q.memberIds.map (r.sizeOwnedBy · .primary) = quotas) ∧
      ∀ prior, (q.attempt prior tolerance).map (fun r id => r.sizeOwnedBy id .primary) =
        (q.attempt none tolerance).map fun r id => r.sizeOwnedBy id .primary := by
  constructor
  · intro plan quotas hplan hquotas hcheck
    have hsettled := settled_of_eq_ok hids hplan hquotas
    refine ⟨hsettled.le, hsettled.sum.trans (Nat.mul_comm _ _), fun prior => ?_⟩
    obtain ⟨r, hr, hrealises⟩ := attempt_of_checked hids hplan hquotas hcheck prior
    exact ⟨r, hr, hrealises.map_sizeOwnedBy hsettled⟩
  · intro prior
    rcases attempt_cases q tolerance with ⟨failure, hfailure⟩ | ⟨plan, quotas, hplan, hquotas, hcheck⟩
    · rw [hfailure prior, hfailure none]
    · have hsettled := settled_of_eq_ok hids hplan hquotas
      obtain ⟨r, hr, hrealises⟩ := attempt_of_checked hids hplan hquotas hcheck prior
      obtain ⟨f, hf, hfresh⟩ := attempt_of_checked hids hplan hquotas hcheck none
      rw [hr, hf]
      exact congrArg Except.ok (funext (hrealises.sizeOwnedBy_congr hfresh hsettled))

theorem attempt_sizes_fourMembers :
    fourMembers.memberIds.Nodup ∧
      ((fourMembers.attempt none 0.5).toOption.map fun r =>
        fourMembers.memberIds.map (r.sizeOwnedBy · .primary)) = some [5, 5, 5, 5] ∧
      (fourMembers.attempt (some fourMembersPrior) 0.5).map (fun r id => r.sizeOwnedBy id .primary) =
        (fourMembers.attempt none 0.5).map fun r id => r.sizeOwnedBy id .primary :=
  ⟨by decide, by decide +kernel, (attempt_sizes (by decide) 0.5).2 (some fourMembersPrior)⟩

end ReplicaRing.PlacementRequest
