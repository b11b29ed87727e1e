import ReplicaRing.Proofs.Placement.Escalation
import ReplicaRing.Proofs.Placement.Moves

/-!
# Placing again

* `PlacementRequest.attempt_again`: an attempt that starts from a ring of an attempt for the same
  request, at whatever tolerance, gives that ring again.
* `PlacementRequest.place_self`: so does a placement, whatever ring the first one started from.

Every member owns its quota in the earlier ring, so nobody releases anything and nobody is filled up
(`Layer.release_eq_self`, `Layer.fill?_eq_self`). The layers that are read off the earlier ring give
each offset the owners it had (`Realises.owners_layersOf`), although their spans may be cut in other
places than those of the layers that the ring was made from. The entries are the same all the same,
because entries are kept in canonical form. And the tolerance is the same, because no earlier ring
makes an attempt fail or succeed.
-/

namespace ReplicaRing

namespace PlacementRequest

open Layer

variable {q : PlacementRequest} {plan : ReplicaCounts} {quotas : List Nat} {layers : List Layer}
  {prior : Option Ring} {r : Ring}

/-! ### The layers of a ring that was placed -/

/-- The names of places lead back to the places. -/
theorem map_idxOf?_names (hids : q.memberIds.Nodup) {places : List Nat}
    (h : ∀ m ∈ places, m < q.members.length) :
    (q.names places).map (q.memberIds.idxOf? ·) = places.map some := by
  refine List.ext_getElem? fun j => ?_
  rw [List.getElem?_map, List.getElem?_map, getElem?_names h]
  cases hj : places[j]? with
  | none => rfl
  | some m =>
    have hm : m < q.memberIds.length := by
      rw [length_memberIds]
      exact h m (List.mem_of_getElem? hj)
    have hname : q.memberIds[m]? = some q.memberIds[m] := List.getElem?_eq_getElem hm
    rw [Option.bind_some, hname, Option.map_some, Option.map_some,
      (idxOf?_eq_some_iff_getElem? hids).2 hname]

namespace Realises

theorem length_primary (h : Realises q plan quotas layers r) (hsettled : Settled q plan quotas) :
    ∀ e ∈ r.entries.toList, e.owners.primary.length = plan.primary :=
  fun _ he => (h.soundOwners hsettled he).length_primary

/-- The layers that are read off a ring have the owners of those that it was made from. -/
theorem owners_layersOf (h : Realises q plan quotas layers r) (hsettled : Settled q plan quotas)
    {o : Nat} (ho : o < q.region.size) :
    owners (layersOf q.memberIds r plan.primary) o = owners layers o := by
  have hplaces : ∀ m ∈ owners layers o, m < q.members.length :=
    hsettled.lt_of_mem_owners h.layout ho
  have hcolumn : column (layersOf q.memberIds r plan.primary) o = (owners layers o).map some := by
    rw [column_layersOf (h.length_primary hsettled) (by rwa [h.region]), h.region, h.ownersAt_eq ho,
      map_idxOf?_names hsettled.ids hplaces]
  show (column (layersOf q.memberIds r plan.primary) o).filterMap id = _
  rw [hcolumn, List.filterMap_map]
  exact List.filterMap_some

/-- A placement that starts from a ring with the same quotas leaves its layers alone. -/
theorem layers_self (h : Realises q plan quotas layers r) (hsettled : Settled q plan quotas)
    (hreplicas : r.primaryReplicas = plan.primary) :
    q.layers (some r) plan.primary quotas = layersOf q.memberIds r plan.primary := by
  have hheld : ∀ m quota, quotas[m]? = some quota →
      holding (layersOf q.memberIds r plan.primary) m = quota := by
    intro m quota hquota
    have hm : m < q.memberIds.length := by
      rw [length_memberIds, ← hsettled.length]
      exact (List.getElem?_eq_some_iff.1 hquota).1
    have hname : q.memberIds[m]? = some q.memberIds[m] := List.getElem?_eq_getElem hm
    rw [holding_layersOf hsettled.ids (h.length_primary hsettled) hname]
    exact Option.some.inj ((h.sizeOwnedBy_eq hsettled hname).symm.trans hquota)
  have hadjusted : q.adjustedLayers? r plan.primary quotas =
      some (layersOf q.memberIds r plan.primary) := by
    rw [adjustedLayers?_eq h.region hreplicas (h.length_primary hsettled),
      release_eq_self fun m quota hm => Nat.le_of_eq (hheld m quota hm)]
    exact fill?_eq_self fun m quota hm => Nat.le_of_eq (hheld m quota hm).symm
  exact layers_eq_some hadjusted

end Realises

/-! ### The ring comes out again -/

/-- An attempt that starts from a ring of an attempt for the same request gives that ring again,
with the tolerance of its own. -/
theorem attempt_again (hids : q.memberIds.Nodup) {tolerance other : Float} {r' : Ring}
    (h : q.attempt prior tolerance = .ok r) (h' : q.attempt (some r) other = .ok r') :
    r' = { r with tolerance := other } := by
  obtain ⟨plan, quotas, hplan, hquotas, hcheck, hrealises⟩ := attempt_eq_ok hids h
  obtain ⟨plan', quotas', hplan', hquotas', hcheck', hrealises'⟩ := attempt_eq_ok hids h'
  -- Neither the plan nor the quotas look at the tolerance.
  obtain rfl : plan' = plan := Except.ok.inj (hplan'.symm.trans hplan)
  obtain rfl : quotas' = quotas := Except.ok.inj (hquotas'.symm.trans hquotas)
  have hsettled := settled_of_eq_ok hids hplan hquotas
  have hparts := attempt_parts hplan hquotas hcheck h
  rw [hrealises.layers_self hsettled (congrArg Ring.Parts.primaryReplicas hparts)] at hrealises'
  have hentries : r'.entries.toList = r.entries.toList := by
    refine Ring.entries_eq_of_valueAt? (hrealises'.region.trans hrealises.region.symm) fun c hc => ?_
    rw [hrealises'.region] at hc
    rw [hrealises'.assigned c hc, hrealises.assigned c hc]
    unfold assigned
    rw [hrealises.owners_layersOf hsettled (Region.sub_first_lt hc)]
  apply Ring.eq_of_parts
  show r'.parts = { r.parts with tolerance := other }
  rw [attempt_parts hplan hquotas hcheck' h', hparts, hentries]

theorem attempt_self (hids : q.memberIds.Nodup) {tolerance : Float}
    (h : q.attempt prior tolerance = .ok r) : q.attempt (some r) tolerance = .ok r := by
  obtain ⟨plan, quotas, hplan, hquotas, hcheck, -⟩ := attempt_eq_ok hids h
  have hparts := attempt_parts hplan hquotas hcheck h
  obtain ⟨r', hr', -⟩ := attempt_of_checked hids hplan hquotas hcheck (some r)
  have htolerance : r.tolerance = tolerance := congrArg Ring.Parts.tolerance hparts
  have hsame : r' = r := by
    rw [attempt_again hids h hr', ← htolerance]
  rw [hr', hsame]

theorem escalate_self (hids : q.memberIds.Nodup) {ceiling : Float} {last : Option AttemptFailure}
    {tolerances : List Float} (h : q.escalate prior ceiling last tolerances = .ok r) :
    q.escalate (some r) ceiling last tolerances = .ok r := by
  induction tolerances generalizing last with
  | nil => cases h
  | cons tolerance rest ih =>
    rw [escalate] at h ⊢
    -- An attempt that fails does so from every earlier ring.
    rcases attempt_cases q tolerance with ⟨failure, hfails⟩ | ⟨plan, quotas, hplan, hquotas, hcheck⟩
    · rw [hfails] at h ⊢
      cases failure with
      | structural defect => cases h
      | toleranceExceeded => exact ih h
    · obtain ⟨r', hr', -⟩ := attempt_of_checked hids hplan hquotas hcheck prior
      rw [hr'] at h
      obtain rfl := Except.ok.inj h
      rw [attempt_self hids hr']

/-- Placing the same again, starting from the ring that came out, gives the same ring: the same
entries, replica counts and tolerance. -/
theorem place_self (hids : q.memberIds.Nodup) {config : BuildConfig}
    (h : q.place prior config = .ok r) : q.place (some r) config = .ok r := by
  unfold place at h ⊢
  rw [mapError_eq_ok] at h ⊢
  exact escalate_self hids h

end PlacementRequest

end ReplicaRing
