import ReplicaRing.Proofs.Layers.Adjusting
import ReplicaRing.Proofs.Placement.Outcome
import ReplicaRing.Proofs.Slots

/-!
# How much an attempt moves

An attempt that starts from an earlier ring of the same region and the same number of primary owners
lays its quotas out by adjusting that ring, or falls back to the ring of an attempt that starts from
nothing. In the first case as few slots change hands as can for what the members own afterwards
(`MovesLeast`), and with one primary owner for each coordinate it is always the first case
(`attempt_moves`).
-/

namespace ReplicaRing.PlacementRequest

open Layer

/-- From the earlier ring to the new one, as few slots change hands as can: members that own no less
than before keep their slots, members that own no more gain none, and no ring in which the members
own as much is closer to the earlier one. -/
structure MovesLeast (q : PlacementRequest) (p : Nat) (prior r : Ring) : Prop where
  moved_add : Ring.moved p prior r + ∑ id ∈ q.memberIds.toFinset,
    min (prior.sizeOwnedBy id .primary) (r.sizeOwnedBy id .primary) = p * q.region.size
  keeps : ∀ id ∈ q.memberIds, prior.sizeOwnedBy id .primary ≤ r.sizeOwnedBy id .primary →
    prior.slotsOf p id ⊆ r.slotsOf p id
  gains_none : ∀ id ∈ q.memberIds, r.sizeOwnedBy id .primary ≤ prior.sizeOwnedBy id .primary →
    r.slotsOf p id ⊆ prior.slotsOf p id
  least : ∀ other : Ring, other.region = q.region →
    (∀ e ∈ other.entries.toList, e.owners.primary.length = p) →
    (∀ id ∈ q.memberIds, other.sizeOwnedBy id .primary = r.sizeOwnedBy id .primary) →
    Ring.moved p prior r ≤ Ring.moved p prior other

/-! ### Slots and columns -/

/-- In the ring of an attempt, a member owns the slots that it has in the layers. -/
theorem Realises.slotOwner?_eq_some_iff {q : PlacementRequest} {plan : ReplicaCounts}
    {quotas : List Nat} {layers : List Layer} {r : Ring} (h : Realises q plan quotas layers r)
    (hsettled : Settled q plan quotas) {m : Nat} {id : NodeId} (hm : q.memberIds[m]? = some id)
    {o : Nat} (ho : o < q.region.size) (j : Nat) :
    r.slotOwner? (q.region.first + o, j) = some id ↔ (column layers o)[j]? = some (some m) := by
  unfold Ring.slotOwner?
  rw [h.ownersAt_eq ho, getElem?_names (hsettled.lt_of_mem_owners h.layout ho),
    h.layout.column_eq hsettled.sum ho, List.getElem?_map, Option.bind_eq_some_iff,
    Option.map_eq_some_iff]
  constructor
  · rintro ⟨m', hm', hid⟩
    exact ⟨m', hm', congrArg some (eq_of_getElem?_memberIds hsettled.ids hid hm)⟩
  · rintro ⟨m', hm', heq⟩
    obtain rfl := Option.some.inj heq
    exact ⟨m', hm', hm⟩

/-- In an earlier ring, a member owns the slots that it has in the layers of the ring. -/
theorem slotOwner?_eq_some_iff_layersOf {members : List NodeId} {r : Ring} {p : Nat}
    (hmembers : members.Nodup) (h : ∀ e ∈ r.entries.toList, e.owners.primary.length = p) {m : Nat}
    {id : NodeId} (hm : members[m]? = some id) {o : Nat} (ho : o < r.region.size) (j : Nat) :
    r.slotOwner? (r.region.first + o, j) = some id ↔
      (column (layersOf members r p) o)[j]? = some (some m) := by
  unfold Ring.slotOwner?
  rw [column_layersOf h ho, List.getElem?_map, Option.map_eq_some_iff]
  constructor
  · intro hid
    exact ⟨id, hid, (idxOf?_eq_some_iff_getElem? hmembers).2 hm⟩
  · rintro ⟨id', hid', hm'⟩
    obtain rfl := Option.some.inj (((idxOf?_eq_some_iff_getElem? hmembers).1 hm').symm.trans hm)
    exact hid'

/-! ### Adjusted rings -/

theorem sum_toFinset_eq_sumOf {ids : List NodeId} (h : ids.Nodup) (f : NodeId → Nat) :
    ∑ id ∈ ids.toFinset, f id = sumOf (ids.map f) := by
  induction ids with
  | nil => rfl
  | cons id ids ih =>
    obtain ⟨hid, hrest⟩ := List.nodup_cons.1 h
    rw [List.toFinset_cons, Finset.sum_insert (by simpa using hid), ih hrest, List.map_cons,
      sumOf_cons]

/-- The rings before and after an adjustment of layers. -/
structure Adjusted (q : PlacementRequest) (plan : ReplicaCounts) (quotas : List Nat) (prior r : Ring) :
    Prop where
  settled : Settled q plan quotas
  region : prior.region = q.region
  entries : ∀ e ∈ prior.entries.toList, e.owners.primary.length = plan.primary
  realises : ∃ after,
    fill? quotas (release quotas (layersOf q.memberIds prior plan.primary)) = some after ∧
      Realises q plan quotas after r

namespace Adjusted

variable {q : PlacementRequest} {plan : ReplicaCounts} {quotas : List Nat} {prior r : Ring}

/-- A slot of the region is that of an offset. -/
theorem exists_offset (h : Adjusted q plan quotas prior r) {slot : Nat × Nat}
    (hslot : slot ∈ Ring.slots prior.region plan.primary) :
    ∃ o < q.region.size, slot = (q.region.first + o, slot.2) := by
  obtain ⟨hc, -⟩ := Ring.mem_slots.1 hslot
  rw [h.region] at hc
  refine ⟨slot.1 - q.region.first, Region.sub_first_lt hc, ?_⟩
  rw [Nat.add_sub_cancel' hc.1]

theorem slotOwner?_prior (h : Adjusted q plan quotas prior r) {m : Nat} {id : NodeId}
    (hm : q.memberIds[m]? = some id) {o : Nat} (ho : o < q.region.size) (j : Nat) :
    prior.slotOwner? (q.region.first + o, j) = some id ↔
      (column (layersOf q.memberIds prior plan.primary) o)[j]? = some (some m) := by
  rw [← h.region] at ho ⊢
  exact slotOwner?_eq_some_iff_layersOf h.settled.ids h.entries hm ho j

/-- A member that owns no less than before keeps its slots. -/
theorem keeps (h : Adjusted q plan quotas prior r) {id : NodeId} (hid : id ∈ q.memberIds)
    (hle : prior.sizeOwnedBy id .primary ≤ r.sizeOwnedBy id .primary) :
    prior.slotsOf plan.primary id ⊆ r.slotsOf plan.primary id := by
  intro slot hmem
  obtain ⟨after, hfill, hrealises⟩ := h.realises
  obtain ⟨m, hm⟩ := List.mem_iff_getElem?.1 hid
  obtain ⟨hslots, howner⟩ := Ring.mem_slotsOf.1 hmem
  obtain ⟨o, ho, heq⟩ := h.exists_offset hslots
  rw [heq] at howner
  rw [h.slotOwner?_prior hm ho] at howner
  rw [← holding_layersOf h.settled.ids h.entries hm] at hle
  have hkept := fill?_keeps spansFrom_layersOf hfill (hrealises.sizeOwnedBy_eq h.settled hm) hle
    howner
  refine Ring.mem_slotsOf.2 ⟨by rwa [hrealises.region, ← h.region], ?_⟩
  rw [heq]
  exact (hrealises.slotOwner?_eq_some_iff h.settled hm ho _).2 hkept

/-- A member that owns no more than before gains no slot. -/
theorem gains_none (h : Adjusted q plan quotas prior r) {id : NodeId} (hid : id ∈ q.memberIds)
    (hle : r.sizeOwnedBy id .primary ≤ prior.sizeOwnedBy id .primary) :
    r.slotsOf plan.primary id ⊆ prior.slotsOf plan.primary id := by
  intro slot hmem
  obtain ⟨after, hfill, hrealises⟩ := h.realises
  obtain ⟨m, hm⟩ := List.mem_iff_getElem?.1 hid
  obtain ⟨hslots, howner⟩ := Ring.mem_slotsOf.1 hmem
  rw [hrealises.region, ← h.region] at hslots
  obtain ⟨o, ho, heq⟩ := h.exists_offset hslots
  rw [heq] at howner
  rw [hrealises.slotOwner?_eq_some_iff h.settled hm ho] at howner
  rw [← holding_layersOf h.settled.ids h.entries hm] at hle
  have hbefore := fill?_gains_none spansFrom_layersOf hfill
    (hrealises.sizeOwnedBy_eq h.settled hm) hle howner
  refine Ring.mem_slotsOf.2 ⟨hslots, ?_⟩
  rw [heq]
  exact (h.slotOwner?_prior hm ho _).2 hbefore

/-- The ring of adjusted layers is as close to the earlier one as can be. -/
theorem movesLeast (h : Adjusted q plan quotas prior r) : MovesLeast q plan.primary prior r := by
  obtain ⟨after, -, hrealises⟩ := h.realises
  have hregion : prior.region = r.region := h.region.trans hrealises.region.symm
  have hentries : ∀ e ∈ r.entries.toList, e.owners.primary.length = plan.primary := fun e he =>
    (hrealises.soundOwners h.settled he).length_primary
  have hall : ∑ id ∈ q.memberIds.toFinset, r.sizeOwnedBy id .primary =
      plan.primary * r.region.size := by
    rw [sum_toFinset_eq_sumOf h.settled.ids, hrealises.map_sizeOwnedBy h.settled, h.settled.sum,
      hrealises.region, Nat.mul_comm]
  have hmoved := Ring.moved_add_eq hregion h.entries hentries hall
    (fun id hid => h.keeps (List.mem_toFinset.1 hid))
    (fun id hid => h.gains_none (List.mem_toFinset.1 hid))
  refine ⟨by rw [hmoved, hrealises.region], fun id => h.keeps, fun id => h.gains_none, ?_⟩
  intro other hother hlist hsizes
  have hsame : ∀ id ∈ q.memberIds.toFinset,
      other.sizeOwnedBy id .primary = r.sizeOwnedBy id .primary :=
    fun id hid => hsizes id (List.mem_toFinset.1 hid)
  have hothers : ∑ id ∈ q.memberIds.toFinset, other.sizeOwnedBy id .primary =
      plan.primary * other.region.size := by
    rw [Finset.sum_congr rfl hsame, hall, hrealises.region, hother]
  have hbound := Ring.le_moved_add (h.region.trans hother.symm) h.entries hlist hothers
  rw [Finset.sum_congr rfl fun id hid => congrArg (min _) (hsame id hid), hother,
    ← hrealises.region, ← hmoved] at hbound
  exact Nat.le_of_add_le_add_right hbound

end Adjusted

/-! ### Attempts -/

/-- Layers of an earlier ring that cannot be adjusted leave the fresh ones. -/
theorem layers_eq_none {q : PlacementRequest} {prior : Ring} {replicas : Nat} {quotas : List Nat}
    (h : q.adjustedLayers? prior replicas quotas = none) :
    q.layers (some prior) replicas quotas = q.layers none replicas quotas := by
  unfold layers
  rw [Option.bind_some, h]
  rfl

theorem layers_eq_some {q : PlacementRequest} {prior : Ring} {replicas : Nat} {quotas : List Nat}
    {after : List Layer} (h : q.adjustedLayers? prior replicas quotas = some after) :
    q.layers (some prior) replicas quotas = after := by
  unfold layers
  rw [Option.bind_some, h]
  rfl

theorem adjustedLayers?_eq {q : PlacementRequest} {prior : Ring} {replicas : Nat}
    {quotas : List Nat} (hregion : prior.region = q.region)
    (hreplicas : prior.primaryReplicas = replicas)
    (hentries : ∀ e ∈ prior.entries.toList, e.owners.primary.length = replicas) :
    q.adjustedLayers? prior replicas quotas =
      fill? quotas (release quotas (layersOf q.memberIds prior replicas)) := by
  unfold adjustedLayers?
  rw [layersOfPrior?_eq_some.2 ⟨⟨hregion, hreplicas, hentries⟩, rfl⟩, Option.bind_some]

/-- With a single primary owner everywhere, every member reaches its quota. -/
theorem Settled.fill?_ne_none {q : PlacementRequest} {plan : ReplicaCounts} {quotas : List Nat}
    (h : Settled q plan quotas) {prior : Ring} (hregion : prior.region = q.region)
    (hentries : ∀ e ∈ prior.entries.toList, e.owners.primary.length = plan.primary)
    (hone : plan.primary = 1) :
    fill? quotas (release quotas (layersOf q.memberIds prior plan.primary)) ≠ none := by
  have hsum := h.sum
  rw [hone] at hentries hsum ⊢
  have hlength : (layersOf q.memberIds prior 1).length = 1 := length_layersOf
  obtain ⟨layer, hlayer⟩ := List.length_eq_one_iff.1 hlength
  have hspans : SpansFrom 0 q.region.size layer := by
    rw [← hregion]
    exact spansFrom_layersOf layer (hlayer ▸ List.mem_singleton_self layer)
  rw [hlayer]
  refine fill?_singleton_ne_none hspans (fun o ho m hm => ?_) (by rw [hsum, Nat.mul_one])
  rw [h.length, ← length_memberIds]
  refine lt_of_mem_column_layersOf h.ids hentries (o := o) (by rwa [hregion]) ?_
  rw [hlayer, column, List.map_singleton, hm]
  exact List.mem_singleton_self _

/-- An attempt that starts from an earlier ring of the same shape gives the same ring as an attempt
that starts from nothing, or it moves as little as can be moved; with one primary owner everywhere
the latter is always true. So it never moves more than an attempt that starts from nothing. -/
theorem attempt_moves {q : PlacementRequest} (hids : q.memberIds.Nodup) {prior r : Ring}
    {tolerance : Float} (hregion : prior.region = q.region)
    (hreplicas : prior.primaryReplicas = min q.primaryReplicas q.members.length)
    (hentries : ∀ e ∈ prior.entries.toList,
      e.owners.primary.length = min q.primaryReplicas q.members.length)
    (h : q.attempt (some prior) tolerance = .ok r) :
    let p := min q.primaryReplicas q.members.length
    ∃ f, q.attempt none tolerance = .ok f ∧ (r = f ∨ MovesLeast q p prior r) ∧
      (p = 1 → MovesLeast q p prior r) ∧ Ring.moved p prior r ≤ Ring.moved p prior f := by
  obtain ⟨plan, quotas, hplan, hquotas, hcheck, hrealises⟩ := attempt_eq_ok hids h
  have hsettled := settled_of_eq_ok hids hplan hquotas
  obtain ⟨-, hprimary, -, -⟩ := plan_eq_ok hplan
  rw [← hprimary] at hreplicas hentries ⊢
  intro p
  obtain ⟨f, hf, hfresh⟩ := attempt_of_checked hids hplan hquotas hcheck none
  refine ⟨f, hf, ?_⟩
  have hadjusted := @adjustedLayers?_eq q prior plan.primary quotas hregion hreplicas hentries
  cases hfill : fill? quotas (release quotas (layersOf q.memberIds prior plan.primary)) with
  | none =>
    -- The layers are the fresh ones, and so is the ring.
    have hsame : r = f := by
      have hlayers := layers_eq_none (hadjusted.trans hfill)
      rw [attempt_eq_ringOf hplan hquotas hcheck, hlayers,
        ← attempt_eq_ringOf hplan hquotas hcheck, hf] at h
      exact (Except.ok.inj h).symm
    refine ⟨Or.inl hsame, fun hone => ?_, by rw [hsame]⟩
    exact absurd hfill (hsettled.fill?_ne_none hregion hentries hone)
  | some after =>
    rw [layers_eq_some (hadjusted.trans hfill)] at hrealises
    have hleast : MovesLeast q plan.primary prior r :=
      Adjusted.movesLeast ⟨hsettled, hregion, hentries, after, hfill, hrealises⟩
    refine ⟨Or.inr hleast, fun _ => hleast, hleast.least f hfresh.region (fun e he => ?_) ?_⟩
    · exact (hfresh.soundOwners hsettled he).length_primary
    · exact fun id _ => hfresh.sizeOwnedBy_congr hrealises hsettled id

theorem attempt_moves_fourMembers :
    ∃ r f, fourMembers.attempt (some fourMembersPrior) 0.5 = .ok r ∧
      fourMembers.attempt none 0.5 = .ok f ∧ (r = f ∨ MovesLeast fourMembers 2 fourMembersPrior r) ∧
      Ring.moved 2 fourMembersPrior r ≤ Ring.moved 2 fourMembersPrior f := by
  have hok : (fourMembers.attempt (some fourMembersPrior) 0.5).toOption.isSome = true := by
    decide +kernel
  cases hr : fourMembers.attempt (some fourMembersPrior) 0.5 with
  | error _ =>
    rw [hr] at hok
    cases hok
  | ok r =>
    obtain ⟨f, hf, hleast, -, hle⟩ := attempt_moves (by decide) rfl (by decide) (by decide) hr
    exact ⟨r, f, rfl, hf, hleast, hle⟩

end ReplicaRing.PlacementRequest
