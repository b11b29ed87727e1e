import ReplicaRing.Placement.Attempt
import Mathlib.Data.List.Nodup
import Mathlib.Data.Nat.ModEq

/-!
# Names and secondary owners

The secondary owners that go with some primary ones are taken from a circle of all members
(`nodup_circle`), so none is repeated, and there are as many of them as the plan says
(`length_secondaries`): a plan that keeps secondary owners apart from the primary ones asks for no
more than the other members (`PlanFits`, `plan_eq_ok`).
-/

namespace ReplicaRing.PlacementRequest

/-- A plan for `n` members asks for no more owners than there are members, and for no more secondary
ones than there are others where it keeps them apart. -/
structure PlanFits (n : Nat) (plan : ReplicaCounts) : Prop where
  pos : 0 < plan.primary
  primary_le : plan.primary ≤ n
  secondary_le : plan.secondary ≤ if plan.disjoint then n - plan.primary else n

/-- What a plan says. -/
theorem plan_eq_ok {q : PlacementRequest} {plan : ReplicaCounts} (h : q.plan = .ok plan) :
    PlanFits q.members.length plan ∧
      plan.primary = min q.primaryReplicas q.members.length ∧
      plan.secondary = (if plan.primary < q.members.length
        then min q.secondaryReplicas (q.members.length - plan.primary)
        else min q.secondaryReplicas q.members.length) ∧
      (plan.disjoint = true ↔ plan.primary < q.members.length) := by
  unfold PlacementRequest.plan at h
  dsimp only at h
  split at h
  · cases h
  · rename_i hmembers
    split at h
    · cases h
    · rename_i hreplicas
      split at h
      · cases h
      · split at h
        · rename_i hlt
          obtain rfl := Except.ok.inj h
          exact ⟨⟨by dsimp only; omega, Nat.min_le_right _ _, Nat.min_le_right _ _⟩, rfl,
            (if_pos hlt).symm, iff_of_true rfl hlt⟩
        · rename_i hnot
          obtain rfl := Except.ok.inj h
          exact ⟨⟨by dsimp only; omega, Nat.min_le_right _ _, Nat.min_le_right _ _⟩, rfl,
            (if_neg hnot).symm, iff_of_false Bool.false_ne_true hnot⟩

/-! ### Names -/

section Names

variable {q : PlacementRequest} {places : List Nat}

theorem mem_names {id : NodeId} :
    id ∈ q.names places ↔ ∃ m ∈ places, q.memberIds[m]? = some id := by
  unfold names
  exact List.mem_filterMap

theorem mem_memberIds_of_mem_names {id : NodeId} (h : id ∈ q.names places) : id ∈ q.memberIds := by
  obtain ⟨m, -, hm⟩ := mem_names.1 h
  exact List.mem_of_getElem? hm

theorem length_memberIds (q : PlacementRequest) : q.memberIds.length = q.members.length :=
  List.length_map _

/-- Each place of a member has a name. -/
theorem map_some_names (h : ∀ m ∈ places, m < q.members.length) :
    (q.names places).map some = places.map (q.memberIds[·]?) := by
  induction places with
  | nil => rfl
  | cons m places ih =>
    have hm : m < q.memberIds.length := by
      rw [length_memberIds]
      exact h m (List.mem_cons_self ..)
    have hrest := ih fun m hm => h m (List.mem_cons_of_mem _ hm)
    unfold names at hrest ⊢
    rw [List.filterMap_cons_some (List.getElem?_eq_getElem hm), List.map_cons, hrest,
      List.map_cons, List.getElem?_eq_getElem hm]

theorem length_names (h : ∀ m ∈ places, m < q.members.length) :
    (q.names places).length = places.length := by
  simpa using congrArg List.length (map_some_names h)

theorem getElem?_names (h : ∀ m ∈ places, m < q.members.length) (j : Nat) :
    (q.names places)[j]? = places[j]?.bind (q.memberIds[·]?) := by
  have hj := congrArg (·[j]?) (map_some_names h)
  rw [List.getElem?_map, List.getElem?_map] at hj
  cases hplace : places[j]? with
  | none =>
    rw [hplace, Option.map_none, Option.map_eq_none_iff] at hj
    exact hj
  | some m =>
    rw [hplace, Option.map_some, Option.map_eq_some_iff] at hj
    obtain ⟨id, hid, hm⟩ := hj
    exact hid.trans hm

/-- Members of different names have different places. -/
theorem eq_of_getElem?_memberIds (hids : q.memberIds.Nodup) {m m' : Nat} {id : NodeId}
    (hm : q.memberIds[m]? = some id) (hm' : q.memberIds[m']? = some id) : m = m' :=
  (List.getElem?_inj (List.getElem?_eq_some_iff.1 hm).1 hids).1 (hm.trans hm'.symm)

theorem nodup_names (hids : q.memberIds.Nodup) (h : places.Nodup) : (q.names places).Nodup := by
  unfold names
  exact h.filterMap fun m m' id hm hm' => eq_of_getElem?_memberIds hids hm hm'

/-- A member has its name among the names of some places exactly if its place is one of them. -/
theorem mem_names_iff (hids : q.memberIds.Nodup) {m : Nat} {id : NodeId}
    (hm : q.memberIds[m]? = some id) : id ∈ q.names places ↔ m ∈ places := by
  rw [mem_names]
  constructor
  · rintro ⟨m', hmem, hm'⟩
    rwa [eq_of_getElem?_memberIds hids hm hm']
  · intro hmem
    exact ⟨m, hmem, hm⟩

end Names

/-! ### Secondary owners -/

/-- Going round in a circle meets nobody twice. -/
theorem nodup_circle (n after : Nat) : ((List.range n).map fun k => (after + k) % n).Nodup := by
  refine List.Nodup.map_on (fun k hk k' hk' heq => ?_) List.nodup_range
  rw [List.mem_range] at hk hk'
  have hmod : k ≡ k' [MOD n] := Nat.ModEq.add_left_cancel' after heq
  rwa [Nat.ModEq, Nat.mod_eq_of_lt hk, Nat.mod_eq_of_lt hk'] at hmod

section Secondaries

variable {n : Nat} {plan : ReplicaCounts} {primaries : List Nat}

theorem nodup_secondaries : (secondaries n plan primaries).Nodup := by
  unfold secondaries
  exact ((nodup_circle n _).filter _).sublist (List.take_sublist ..)

theorem lt_of_mem_secondaries {m : Nat} (hm : m ∈ secondaries n plan primaries) : m < n := by
  have hcircle := (List.mem_filter.1 (List.mem_of_mem_take hm)).1
  obtain ⟨k, hk, rfl⟩ := List.mem_map.1 hcircle
  exact Nat.mod_lt _ (Nat.zero_lt_of_lt (List.mem_range.1 hk))

/-- Where the plan keeps secondary owners apart, none of them is a primary one. -/
theorem not_mem_primaries_of_mem_secondaries (hdisjoint : plan.disjoint = true) {m : Nat}
    (hm : m ∈ secondaries n plan primaries) : m ∉ primaries := by
  have hkept := (List.mem_filter.1 (List.mem_of_mem_take hm)).2
  rw [hdisjoint] at hkept
  simpa using hkept

/-- There are as many secondary owners as the plan says. -/
theorem length_secondaries (hplan : PlanFits n plan) (hlength : primaries.length = plan.primary) :
    (secondaries n plan primaries).length = plan.secondary := by
  unfold secondaries
  generalize ((primaries.getLast?.map (· + 1)).getD 0) = after
  have hnodup := nodup_circle n after
  have hcircle : ((List.range n).map fun k => (after + k) % n).length = n := by simp
  dsimp only
  generalize (List.range n).map (fun k => (after + k) % n) = circle at hnodup hcircle ⊢
  rw [List.length_take]
  have hle := hplan.secondary_le
  cases hdisjoint : plan.disjoint with
  | false =>
    rw [hdisjoint] at hle
    simp only [Bool.false_and, Bool.not_false, List.filter_true, hcircle]
    exact Nat.min_eq_left (by simpa using hle)
  | true =>
    rw [hdisjoint, if_pos rfl] at hle
    -- The primary owners on the circle are no more than the primary owners.
    have htaken : (circle.filter fun m => primaries.contains m).length ≤ primaries.length := by
      refine (hnodup.filter _).length_le_of_subset fun m hm => ?_
      simpa using (List.mem_filter.1 hm).2
    have hsplit := List.length_eq_length_filter_add (l := circle) fun m => primaries.contains m
    simp only [Bool.true_and]
    omega

end Secondaries

end ReplicaRing.PlacementRequest
