import ReplicaRing.Proofs.Trees.Covering

/-!
# What an earlier tree decides

`Builder.seeded_allotments`: whichever tree a build starts from, it succeeds or fails as a build
that starts from none, and where it succeeds, the same nodes have rings, and these allot the same.

A ring's allotment (`Ring.allotment`) is all that can be said of it without saying where its regions
lie. Every stage of a build comes to the same allotment or to the same error with any earlier ring:
an attempt (`PlacementRequest.attempt_allotment`), a placement (`place_allotment`) and the ring of a
node (`Recipe.ring_allotment`). So the same ring is the first to fail (`Recipe.failure_subtree`).
-/

namespace ReplicaRing

/-- Two results that a function takes to the same are the same error, or both successes. -/
theorem of_map_eq_map {ε α β : Type} {f : α → β} {x y : Except ε α} (h : x.map f = y.map f) :
    (∃ e, x = .error e ∧ y = .error e) ∨ ∃ a b, x = .ok a ∧ y = .ok b ∧ f a = f b := by
  cases x <;> cases y <;> simp_all [Except.map]

/-- On which terms a ring was made, and how much of its region it gives to whom. -/
structure Allotment where
  node : NodeId
  policy : String
  region : Region
  primaryReplicas : Nat
  secondaryReplicas : Nat
  tolerance : Float
  /-- The number of coordinates that a node is a primary owner of. -/
  primarySize : NodeId → Nat

def Ring.allotment (r : Ring) : Allotment where
  node := r.node
  policy := r.policy
  region := r.region
  primaryReplicas := r.primaryReplicas
  secondaryReplicas := r.secondaryReplicas
  tolerance := r.tolerance
  primarySize id := r.sizeOwnedBy id .primary

namespace PlacementRequest

variable {q : PlacementRequest}

theorem attempt_allotment (hids : q.memberIds.Nodup) (prior : Option Ring) (tolerance : Float) :
    (q.attempt prior tolerance).map Ring.allotment =
      (q.attempt none tolerance).map Ring.allotment := by
  rcases attempt_cases q tolerance with ⟨failure, hfailure⟩ | ⟨plan, quotas, hplan, hquotas, hcheck⟩
  · rw [hfailure prior, hfailure none]
  · have hsettled := settled_of_eq_ok hids hplan hquotas
    obtain ⟨r, hr, hrealises⟩ := attempt_of_checked hids hplan hquotas hcheck prior
    obtain ⟨f, hf, hfresh⟩ := attempt_of_checked hids hplan hquotas hcheck none
    have hsize := hrealises.sizeOwnedBy_congr hfresh hsettled
    have hparts := attempt_parts hplan hquotas hcheck hr
    have hparts' := attempt_parts hplan hquotas hcheck hf
    simp only [Ring.parts, Ring.Parts.mk.injEq] at hparts hparts'
    simp [hr, hf, Except.map, Ring.allotment, hparts, hparts', hsize]

theorem escalate_allotment (hids : q.memberIds.Nodup) (prior : Option Ring) (ceiling : Float)
    (last : Option AttemptFailure) (tolerances : List Float) :
    (q.escalate prior ceiling last tolerances).map Ring.allotment =
      (q.escalate none ceiling last tolerances).map Ring.allotment := by
  induction tolerances generalizing last with
  | nil => rfl
  | cons tolerance rest ih =>
    rw [escalate, escalate]
    rcases of_map_eq_map (attempt_allotment hids prior tolerance) with
      ⟨failure, hr, hf⟩ | ⟨r, f, hr, hf, hsame⟩
    · rw [hr, hf]
      cases failure with
      | structural defect => rfl
      | toleranceExceeded member deviation tolerance => exact ih _
    · rw [hr, hf]
      exact congrArg Except.ok hsame

theorem place_allotment (hids : q.memberIds.Nodup) (prior : Option Ring) (config : BuildConfig) :
    (q.place prior config).map Ring.allotment = (q.place none config).map Ring.allotment := by
  unfold place
  rcases of_map_eq_map (escalate_allotment hids prior config.ceiling none config.schedule) with
    ⟨failure, hr, hf⟩ | ⟨r, f, hr, hf, hsame⟩
  · rw [hr, hf]
  · rw [hr, hf]
    exact congrArg Except.ok hsame

end PlacementRequest

/-- Rings that agree in their allotments or errors come to the same failure. -/
theorem Yield.failure_ofResults_congr {α : Type} {f g : α → NodeId × Except Error Ring}
    {xs : List α} (h : ∀ x ∈ xs, (f x).2.map Ring.allotment = (g x).2.map Ring.allotment) :
    (ofResults (xs.map f)).failure = (ofResults (xs.map g)).failure := by
  induction xs with
  | nil => rfl
  | cons x xs ih =>
    have hrest := ih fun y hy => h y (List.mem_cons_of_mem _ hy)
    have hfirst := h x (List.mem_cons_self ..)
    rw [List.map_cons, List.map_cons]
    generalize f x = p at hfirst
    generalize g x = q at hfirst
    obtain ⟨id, result⟩ := p
    obtain ⟨id', result'⟩ := q
    rcases of_map_eq_map hfirst with ⟨e, rfl, rfl⟩ | ⟨ring, ring', rfl, rfl, -⟩
    · rfl
    · exact hrest

namespace Recipe

variable {r : Recipe} (config : BuildConfig) (prior : Option Tree)

theorem ring_allotment {v : Node} (hv : v ∈ r.topology.root.nodes) (name : String) :
    ((r.narrow v name).ring config prior v).map Ring.allotment =
      ((r.narrow v name).ring config none v).map Ring.allotment := by
  rw [ring_narrow_eq, ring_narrow_eq]
  cases r.policies.policy name with
  | error e => simp only [Except.bind]
  | ok policy =>
    have hids := nodup_memberIds (r := r) (r.topology.nodup_children hv) policy
    simp only [Except.bind]
    exact PlacementRequest.place_allotment hids (prior.bind (·.ring? v.id)) config

theorem failure_subtree {root : Node} (hroot : root ∈ r.topology.root.nodes) :
    (r.subtree config prior root).failure = (r.subtree config none root).failure := by
  rw [subtree_eq, subtree_eq]
  refine Yield.failure_ofResults_congr fun p hp => ?_
  exact ring_allotment config prior (Node.mem_nodes_trans (mem_coverage_iff.1 hp).mem_nodes hroot) p.2

end Recipe

namespace Builder

variable {b : Builder} {r : Recipe} {prior : Option Tree} {t t₀ : Tree}

/-- A build fails with an error whatever the earlier tree, or with none. -/
theorem Outcome.eq_error_iff {result fresh : Except Error Tree} (h : b.Outcome r prior result)
    (h₀ : b.Outcome r none fresh) (e : Error) : result = .error e ↔ fresh = .error e := by
  rw [h.eq, h₀.eq]
  cases hroot : r.topology.node r.parent with
  | error e' => simp [buildInOrder, hroot, bind, Except.bind]
  | ok root =>
    have hsame := Recipe.failure_subtree b.config prior (Topology.node_eq_ok_iff.1 hroot).1
    rw [buildInOrder_eq hroot, buildInOrder_eq hroot, hsame]
    cases (r.subtree b.config none root).failure <;> simp

/-- The allotments of a tree that was built are those of fresh rings. -/
theorem Outcome.allotment_eq_some_iff (h : b.Outcome r prior (.ok t)) {root : Node}
    (hroot : r.topology.node r.parent = .ok root) {id : NodeId} {a : Allotment} :
    (t.ring? id).map Ring.allotment = some a ↔ ∃ v name, r.Covered root v name ∧ v.id = id ∧
      ((r.narrow v name).ring b.config none v).map Ring.allotment = .ok a := by
  have hmem := (Topology.node_eq_ok_iff.1 hroot).1
  rw [Option.map_eq_some_iff]
  constructor
  · rintro ⟨ring, hring, rfl⟩
    obtain ⟨v, name, hv, hid, hmade⟩ := (h.ring?_eq_some_iff hroot).1 hring
    refine ⟨v, name, hv, hid, ?_⟩
    rw [← Recipe.ring_allotment b.config prior (Node.mem_nodes_trans hv.mem_nodes hmem), hmade]
    rfl
  · rintro ⟨v, name, hv, hid, hmade⟩
    rw [← Recipe.ring_allotment b.config prior (Node.mem_nodes_trans hv.mem_nodes hmem)] at hmade
    obtain ⟨ring, hring, hsame⟩ := map_eq_ok.1 hmade
    exact ⟨ring, (h.ring?_eq_some_iff hroot).2 ⟨v, name, hv, hid, hring⟩, hsame⟩

/-- An earlier tree decides only where regions lie. A build that starts from any tree fails exactly
if one that starts from none does, and with the same error. If they succeed, the same nodes have
rings in both trees. The rings of a node are made for the same region on the same terms, and give
every child as many coordinates. -/
theorem seeded_allotments {prior : Tree} {result fresh : Except Error Tree}
    (h : b.Outcome r (some prior) result) (h₀ : b.Outcome r none fresh) :
    (∀ e, result = .error e ↔ fresh = .error e) ∧
      ∀ t t₀, result = .ok t → fresh = .ok t₀ →
        (∀ id, (t.ring? id).isSome = (t₀.ring? id).isSome) ∧
          ∀ id ring ring₀, t.ring? id = some ring → t₀.ring? id = some ring₀ →
            ring.allotment = ring₀.allotment := by
  refine ⟨h.eq_error_iff h₀, ?_⟩
  rintro t t₀ rfl rfl
  obtain ⟨root, hroot, -⟩ := h₀.exists_root
  have hsame : ∀ id, (t.ring? id).map Ring.allotment = (t₀.ring? id).map Ring.allotment :=
    fun id => Option.ext fun a =>
      (h.allotment_eq_some_iff hroot).trans (h₀.allotment_eq_some_iff hroot).symm
  refine ⟨fun id => ?_, fun id ring ring₀ hring hring₀ => ?_⟩
  · simpa using congrArg Option.isSome (hsame id)
  · have hid := hsame id
    rw [hring, hring₀] at hid
    exact Option.some.inj hid

/-- An earlier tree of the cluster, with the racks the other way round and no rings below. -/
def swappedRacks : Tree where
  topology := Tree.twoRacks
  parent := "cluster"
  rings := Tree.indexRings [⟨"cluster", "swapped", Tree.twoRacksTree.region, 1, 0, 0.5,
    #[⟨(Region.ofBounds? 0 4).get (by decide), ["s"], []⟩,
      ⟨(Region.ofBounds? 5 7).get (by decide), ["r"], []⟩],
    by decide, by decide, by decide⟩]
  version := 1
  created := 0
  region := Tree.twoRacksTree.region

/-- Starting from the swapped racks, the cluster gets another ring than without them, and both give
every node the same. -/
theorem seeded_allotments_swappedRacks :
    ∃ t t₀ ring ring₀,
      standard.Outcome (twoRacksRecipe "cluster" "cluster" []) (some swappedRacks) (.ok t) ∧
      standard.Outcome (twoRacksRecipe "cluster" "cluster" []) none (.ok t₀) ∧
      t.ring? "cluster" = some ring ∧ t₀.ring? "cluster" = some ring₀ ∧
      ring.ownersAt 0 .primary = ["s"] ∧ ring₀.ownersAt 0 .primary = ["r"] ∧
      ring.allotment = ring₀.allotment := by
  obtain ⟨t, h, htest⟩ := exists_outcome (show ((standard.build
    (twoRacksRecipe "cluster" "cluster" []) (some swappedRacks)).toOption.any fun t =>
      (t.ring? "cluster").any fun ring => ring.ownersAt 0 .primary = ["s"]) = true
    by decide +kernel)
  obtain ⟨t₀, h₀, htest₀⟩ := exists_outcome (show ((standard.build
    (twoRacksRecipe "cluster" "cluster" []) none).toOption.any fun t =>
      (t.ring? "cluster").any fun ring => ring.ownersAt 0 .primary = ["r"]) = true
    by decide +kernel)
  obtain ⟨ring, hring, howners⟩ := (Option.any_eq_true _ _).1 htest
  obtain ⟨ring₀, hring₀, howners₀⟩ := (Option.any_eq_true _ _).1 htest₀
  have hsame := ((seeded_allotments h h₀).2 t t₀ rfl rfl).2 "cluster" ring ring₀ hring hring₀
  exact ⟨t, t₀, ring, ring₀, h, h₀, hring, hring₀, of_decide_eq_true howners,
    of_decide_eq_true howners₀, hsame⟩

end Builder

end ReplicaRing
