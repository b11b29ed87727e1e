import ReplicaRing.Proofs.Placement.Resumption
import ReplicaRing.Proofs.ReplicaMaps.Changes
import ReplicaRing.Proofs.Trees.Covering

/-!
# Building from an earlier tree

* `Builder.outcome_again`: a build that starts from a tree of the same recipe gives that tree again.
* `Builder.rebuild_local`: if the recipe has changed elsewhere, a node whose eligible children are
  the same, with the same weights, keeps its ring.

A placement that starts from its own ring gives the ring again (`PlacementRequest.place_self`), so
all that is left to see is that a node is given the same request in both builds. What it is asked for
depends on the policy that holds there. The way to a node decides which one that is, whatever is
excluded (`Recipe.Covered.name_eq`).
-/

namespace ReplicaRing

namespace Recipe

variable {r₀ r₁ : Recipe} {start v : Node} {n₀ n₁ : String}

/-- A recipe builds at the same node and under the same policies as another one; weights, excluded
nodes and the servers that take part may differ. -/
structure Revises (r₀ r₁ : Recipe) : Prop where
  topology : r₁.topology = r₀.topology
  parent : r₁.parent = r₀.parent
  policies : r₁.policies = r₀.policies
  policyName : r₁.policyName = r₀.policyName
  region : r₁.region = r₀.region

theorem Revises.refl (r : Recipe) : r.Revises r :=
  ⟨rfl, rfl, rfl, rfl, rfl⟩

theorem Revises.narrow (h : r₀.Revises r₁) (v : Node) (name : String) :
    (r₀.narrow v name).Revises (r₁.narrow v name) :=
  ⟨h.topology, rfl, h.policies, rfl, h.region⟩

theorem Revises.policy (h : r₀.Revises r₁) : r₁.policy = r₀.policy := by
  unfold Recipe.policy
  rw [h.policies, h.policyName]

/-- The policy that holds at a node depends on the way to it only. -/
theorem Covered.name_eq (hrevises : r₀.Revises r₁) (hstart : start ∈ r₀.topology.root.nodes)
    (h₀ : r₀.Covered start v n₀) (h₁ : r₁.Covered start v n₁) : n₁ = n₀ := by
  induction start using Node.induct generalizing r₀ r₁ with
  | server id =>
    have hgroup := h₀.isServer_eq_false
    rw [List.mem_singleton.1 h₀.mem_nodes] at hgroup
    cases hgroup
  | group id nodeClass children ih =>
    rcases (covered_iff.1 h₀).2 with ⟨rfl, rfl⟩ | ⟨p₀, c₀, next₀, hp₀, hc₀, hnext₀, hbelow₀⟩
    · rcases (covered_iff.1 h₁).2 with ⟨-, rfl⟩ | ⟨p₁, c₁, next₁, hp₁, hc₁, hnext₁, hbelow₁⟩
      · exact hrevises.policyName
      · exact absurd rfl (Node.ne_of_mem_child hc₁ hbelow₁.mem_nodes)
    · rcases (covered_iff.1 h₁).2 with ⟨rfl, -⟩ | ⟨p₁, c₁, next₁, hp₁, hc₁, hnext₁, hbelow₁⟩
      · exact absurd rfl (Node.ne_of_mem_child hc₀ hbelow₀.mem_nodes)
      · -- Both ways go through the same child, which gets the same policy.
        obtain rfl := r₀.topology.eq_of_below hstart hc₀ hc₁ hbelow₀.mem_nodes hbelow₁.mem_nodes
        rw [hrevises.policy, hp₀] at hp₁
        obtain rfl := Except.ok.inj hp₁
        have hfirst₀ := (childPolicy?_eq_some.1 hnext₀).2.2
        have hfirst₁ := (childPolicy?_eq_some.1 hnext₁).2.2
        obtain rfl := Option.some.inj (hfirst₀.symm.trans hfirst₁)
        exact ih c₀ hc₀ (hrevises.narrow c₀ next₀) (r₀.topology.mem_nodes_of_child hstart hc₀)
          hbelow₀ hbelow₁

theorem Revises.request_eq (h : r₀.Revises r₁) (hmembers : r₁.members v = r₀.members v)
    (policy : StoragePolicy) : r₁.request v policy = r₀.request v policy := by
  unfold request
  rw [h.region, hmembers]

/-- A node with the same members gets the ring that it had in the earlier tree. -/
theorem Revises.ring_eq (h : r₀.Revises r₁) {config : BuildConfig} {prior : Option Tree} {t : Tree}
    {name : String} {ring : Ring} (hv : v ∈ r₀.topology.root.nodes)
    (hmembers : r₁.members v = r₀.members v)
    (hring : (r₀.narrow v name).ring config prior v = .ok ring) (hprior : t.ring? v.id = some ring) :
    (r₁.narrow v name).ring config (some t) v = .ok ring := by
  rw [ring_narrow_eq] at hring ⊢
  obtain ⟨policy, hpolicy, hplace⟩ := bind_eq_ok.1 hring
  have hids := nodup_memberIds (r := r₀) (r₀.topology.nodup_children hv) policy
  refine bind_eq_ok.2 ⟨policy, by rw [h.policies, hpolicy], ?_⟩
  rw [h.request_eq hmembers]
  show (r₀.request v policy).place (t.ring? v.id) config = .ok ring
  rw [hprior]
  exact PlacementRequest.place_self hids hplace

end Recipe

/-- There are no changes between a map and itself. -/
theorem ReplicaMap.changes?_self (m : ReplicaMap) : m.changes? m = .ok [] := by
  have hregion : m.region = m.region := rfl
  obtain ⟨changes, hchanges, horder, -, -, hvalue⟩ := changes?_spec hregion
  rw [hchanges, (changes_eq_nil_iff rfl horder hvalue).2 rfl]

namespace Builder

variable {b : Builder} {r r₀ r₁ : Recipe} {prior : Option Tree} {t t₀ t₁ : Tree}

/-- A node that has a ring in both trees, and the same members, has the same ring. -/
theorem Outcome.ring?_eq (h₀ : b.Outcome r₀ prior (.ok t₀)) (h₁ : b.Outcome r₁ (some t₀) (.ok t₁))
    (hrevises : r₀.Revises r₁) {v : Node} (hv : v ∈ r₀.topology.root.nodes)
    (hsome₀ : (t₀.ring? v.id).isSome) (hsome₁ : (t₁.ring? v.id).isSome)
    (hmembers : r₁.members v = r₀.members v) : t₁.ring? v.id = t₀.ring? v.id := by
  obtain ⟨root, hroot₀, -⟩ := h₀.exists_root
  have hroot₁ : r₁.topology.node r₁.parent = .ok root := by
    rw [hrevises.topology, hrevises.parent, hroot₀]
  have hmem := (Topology.node_eq_ok_iff.1 hroot₀).1
  obtain ⟨v₀, n₀, hv₀, hid₀⟩ := (h₀.isSome_ring?_iff hroot₀).1 hsome₀
  obtain ⟨v₁, n₁, hv₁, hid₁⟩ := (h₁.isSome_ring?_iff hroot₁).1 hsome₁
  obtain rfl := r₀.topology.eq_of_id_eq (Node.mem_nodes_trans hv₀.mem_nodes hmem) hv hid₀
  obtain rfl := r₀.topology.eq_of_id_eq (Node.mem_nodes_trans hv₁.mem_nodes hmem) hv hid₁
  obtain rfl := Recipe.Covered.name_eq hrevises hmem hv₀ hv₁
  obtain ⟨ring₀, hmade₀, hring₀⟩ := h₀.exists_ring hroot₀ hv₀
  obtain ⟨ring₁, hmade₁, hring₁⟩ := h₁.exists_ring hroot₁ hv₁
  have hsame := hrevises.ring_eq hv hmembers hmade₀ hring₀
  obtain rfl := Except.ok.inj (hmade₁.symm.trans hsame)
  rw [hring₁, hring₀]

/-- Building the same again from the tree that came out gives the tree again. -/
theorem outcome_again (h : b.Outcome r prior (.ok t)) {result : Except Error Tree}
    (h' : b.Outcome r (some t) result) : result = .ok t := by
  obtain ⟨root, hroot, -, ht⟩ := h.exists_root
  have hmem := (Topology.node_eq_ok_iff.1 hroot).1
  cases result with
  | error e =>
    -- The ring that fails is one that the tree has.
    rcases h'.error with hnone | ⟨root', v, name, hroot', hv, hfails⟩
    · cases hroot.symm.trans hnone
    · obtain rfl := Except.ok.inj (hroot.symm.trans hroot')
      obtain ⟨ring, hmade, hring⟩ := h.exists_ring hroot hv
      have hagain := (Recipe.Revises.refl r).ring_eq (Node.mem_nodes_trans hv.mem_nodes hmem) rfl
        hmade hring
      cases hfails.symm.trans hagain
  | ok t' =>
    obtain ⟨_, -, -, ht'⟩ := h'.exists_root
    have hring : ∀ id, t'.ring? id = t.ring? id := by
      intro id
      have hsome : (t'.ring? id).isSome ↔ (t.ring? id).isSome :=
        (h'.isSome_ring?_iff hroot).trans (h.isSome_ring?_iff hroot).symm
      by_cases hnone : (t.ring? id).isSome
      · obtain ⟨v, name, hv, rfl⟩ := (h.isSome_ring?_iff hroot).1 hnone
        exact h.ring?_eq h' (.refl r) (Node.mem_nodes_trans hv.mem_nodes hmem) hnone
          (hsome.2 hnone) rfl
      · have hnone' : ¬ (t'.ring? id).isSome := fun hsome' => hnone (hsome.1 hsome')
        rw [Option.not_isSome_iff_eq_none.1 hnone, Option.not_isSome_iff_eq_none.1 hnone']
    have hrings : t'.rings = t.rings := Std.ExtTreeMap.ext_getElem? hring
    rw [ht] at hrings ⊢
    rw [ht'] at hrings ⊢
    exact congrArg (fun rings => Except.ok (Tree.mk r.topology r.parent rings r.version r.created
      r.region)) hrings

/-- A tree is built from an earlier one, at the same node, under the same policies and for the same
region. Every node that has a ring in both trees, and the same eligible children with the same
weights in the same order, has the same ring in both, whatever has changed elsewhere. If nothing has
changed, all rings are the same and no servers change hands. -/
theorem rebuild_local (h₀ : b.Outcome r₀ prior (.ok t₀)) (h₁ : b.Outcome r₁ (some t₀) (.ok t₁))
    (hrevises : r₀.Revises r₁) :
    (∀ v ∈ r₀.topology.root.nodes, (t₀.ring? v.id).isSome → (t₁.ring? v.id).isSome →
      r₁.members v = r₀.members v → t₁.ring? v.id = t₀.ring? v.id) ∧
    (r₁ = r₀ → t₁.nodes = t₀.nodes ∧ (∀ id, t₁.ring? id = t₀.ring? id) ∧
      ∀ map, t₀.flatten t₀.parent = .ok map → t₀.changes t₁ = .ok []) := by
  constructor
  · intro v hv hsome₀ hsome₁ hmembers
    exact h₀.ring?_eq h₁ hrevises hv hsome₀ hsome₁ hmembers
  · rintro rfl
    obtain rfl := Except.ok.inj (outcome_again h₀ h₁)
    refine ⟨rfl, fun _ => rfl, fun map hmap => ?_⟩
    have hself : (map.changes? map).mapError Error.invalidRing = .ok [] :=
      mapError_eq_ok.2 map.changes?_self
    exact bind_eq_ok.2 ⟨map, hmap, bind_eq_ok.2 ⟨map, hmap, hself⟩⟩

/-- Once the second rack is excluded, the first one takes over all regions of the cluster, and its
own ring stays. Nothing changes if nothing is excluded. -/
theorem rebuild_local_secondRackExcluded :
    ∃ t₀ t₁, standard.Outcome (twoRacksRecipe "cluster" "cluster" []) none (.ok t₀) ∧
      standard.Outcome (twoRacksRecipe "cluster" "cluster" ["s"]) (some t₀) (.ok t₁) ∧
      t₁.ring? "cluster" ≠ t₀.ring? "cluster" ∧ (t₀.ring? "r").isSome ∧
      t₁.ring? "r" = t₀.ring? "r" ∧
      standard.Outcome (twoRacksRecipe "cluster" "cluster" []) (some t₀) (.ok t₀) ∧
      t₀.changes t₀ = .ok [] := by
  obtain ⟨t₀, h₀, htest₀⟩ := exists_outcome
    (show ((standard.build (twoRacksRecipe "cluster" "cluster" []) none).toOption.any fun t₀ =>
      (t₀.ring? "r").isSome ∧ (t₀.flatten t₀.parent).toOption.isSome ∧
        ((standard.build (twoRacksRecipe "cluster" "cluster" ["s"]) (some t₀)).toOption.any fun t₁ =>
          (t₁.ring? "r").isSome ∧ t₁.ring? "cluster" ≠ t₀.ring? "cluster") = true) = true
      by decide +kernel)
  obtain ⟨hsome₀, hflat, hbuild⟩ := of_decide_eq_true htest₀
  obtain ⟨t₁, h₁, htest₁⟩ := exists_outcome hbuild
  obtain ⟨hsome₁, hdiffers⟩ := of_decide_eq_true htest₁
  have hrevises : (twoRacksRecipe "cluster" "cluster" []).Revises
      (twoRacksRecipe "cluster" "cluster" ["s"]) := ⟨rfl, rfl, rfl, rfl, rfl⟩
  have hrack : Node.group "r" .rack [.server "a", .server "b"] ∈ Tree.twoRacks.root.nodes := by
    decide +kernel
  have hkept : t₁.ring? "r" = t₀.ring? "r" :=
    (rebuild_local h₀ h₁ hrevises).1 _ hrack hsome₀ hsome₁ (by decide +kernel)
  have hagain := standard.outcome_build (twoRacksRecipe "cluster" "cluster" []) (some t₀)
  rw [outcome_again h₀ hagain] at hagain
  obtain ⟨map, hmap⟩ := Option.isSome_iff_exists.1 hflat
  have hchanges := ((rebuild_local h₀ hagain (.refl _)).2 rfl).2.2 map (toOption_eq_some.1 hmap)
  exact ⟨t₀, t₁, h₀, h₁, hdiffers, hsome₀, hkept, hagain, hchanges⟩

end Builder

end ReplicaRing
