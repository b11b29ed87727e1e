import ReplicaRing.Proofs.Trees.Builds
import ReplicaRing.Proofs.Trees.Lookup

/-!
# A built tree covers the eligible part of the topology

The nodes with a ring are those that the recipe covers, each ring is one of its node and its policy,
and only eligible children own anything in it (`Recipe.RingFor`). A node below an excluded one is
cut off from the parent of the build (`Recipe.CutOff`, `Topology.kept_of_passes`), so it has no ring
and owns nothing. No node is expanded without a member to place on. `Builder.outcome_covers` states
all of it.
-/

namespace ReplicaRing

/-! ### Cut off -/

/-- A way down is empty or goes on from a child of the start. -/
theorem Node.Passes.eq_or_child {keep : Node → Bool} {start node : Node}
    (h : start.Passes keep node) :
    node = start ∨ ∃ child ∈ start.children, child.Passes keep node := by
  induction h with
  | start _ => exact Or.inl rfl
  | down _ hchild hkept ih =>
    rcases ih with rfl | ⟨first, hfirst, hway⟩
    · exact Or.inr ⟨_, hchild, .start hkept⟩
    · exact Or.inr ⟨first, hfirst, hway.down hchild hkept⟩

/-- Every node between the start of a way and its end satisfies `keep`. -/
theorem Topology.kept_of_passes {t : Topology} {keep : Node → Bool} {start x v : Node}
    (hstart : start ∈ t.root.nodes) (h : start.Passes keep v) (hx : x ∈ start.nodes)
    (hv : v ∈ x.nodes) : keep x = true := by
  induction start using Node.induct with
  | server id =>
    obtain rfl := List.mem_singleton.1 hx
    obtain rfl := List.mem_singleton.1 hv
    exact h.kept
  | group id nodeClass children ih =>
    rcases Node.mem_nodes_iff.1 hx with rfl | ⟨below, hbelow, hxbelow⟩
    · -- The way starts at `x`.
      clear * - h
      induction h with
      | start hkept => exact hkept
      | down _ _ _ ih => exact ih
    · have hvbelow := Node.mem_nodes_trans hv hxbelow
      rcases h.eq_or_child with rfl | ⟨first, hfirst, hway⟩
      · exact absurd rfl (Node.ne_of_mem_child hbelow hvbelow)
      · obtain rfl := t.eq_of_below hstart hfirst hbelow hway.mem_nodes hvbelow
        exact ih first hfirst (t.mem_nodes_of_child hstart hfirst) hway hxbelow

theorem PolicyGroup.name_of_policy {g : PolicyGroup} {name : String} {policy : StoragePolicy}
    (h : g.policy name = .ok policy) : policy.name = name := by
  unfold PolicyGroup.policy at h
  split at h
  · rename_i hfound
    obtain rfl := Except.ok.inj h
    exact g.named name _ hfound
  · cases h

/-! ### The rings of covered nodes -/

namespace Recipe

variable {r : Recipe} {config : BuildConfig} {prior : Option Tree} {start v : Node} {name : String}

/-- A ring is what a recipe asks for at a node under a policy, and only eligible children of the
node own anything in it. -/
structure RingFor (r : Recipe) (v : Node) (name : String) (ring : Ring) : Prop where
  node : ring.node = v.id
  policy : ring.policy = name
  region : ring.region = r.region
  owners : ∀ e ∈ ring.entries.toList, ∀ id ∈ e.owners.every,
    ∃ child ∈ v.children, child.id = id ∧ r.Eligible child

/-- The ring of a node comes from a placement on its eligible children. -/
theorem ring_narrow_eq (v : Node) (name : String) :
    (r.narrow v name).ring config prior v = (r.policies.policy name).bind fun policy =>
      (r.request v policy).place (prior.bind (·.ring? v.id)) config := rfl

theorem ringFor_of_ring (hv : v ∈ r.topology.root.nodes) {ring : Ring}
    (h : (r.narrow v name).ring config prior v = .ok ring) : r.RingFor v name ring := by
  rw [ring_narrow_eq] at h
  obtain ⟨policy, hpolicy, hplace⟩ := bind_eq_ok.1 h
  have hplaced := PlacementRequest.placed_of_place
    (nodup_memberIds (r.topology.nodup_children hv) policy) hplace
  refine ⟨hplaced.node, hplaced.policy.trans (PolicyGroup.name_of_policy hpolicy), hplaced.region,
    fun e he id hid => ?_⟩
  exact mem_memberIds.1 (hplaced.members e he id hid)

/-- No ring of a covered node fails for want of members. -/
theorem not_reports_of_ring (hv : v ∈ r.topology.root.nodes) (hcovered : r.Covered start v name)
    {e : Error} (h : (r.narrow v name).ring config prior v = .error e) (node : NodeId) :
    ¬ e.Reports (.noMembers node) := by
  rw [ring_narrow_eq] at h
  cases hpolicy : r.policies.policy name with
  | error e' =>
    rw [hpolicy] at h
    obtain rfl := Except.error.inj h
    unfold PolicyGroup.policy at hpolicy
    split at hpolicy
    · cases hpolicy
    · obtain rfl := Except.error.inj hpolicy
      exact fun hreports => hreports
  | ok policy =>
    rw [hpolicy] at h
    exact PlacementRequest.not_reports_noMembers
      (nodup_memberIds (r.topology.nodup_children hv) policy)
      (members_ne_nil hcovered.eligible hcovered.isServer_eq_false) h node

/-- No server that takes part is reached from a node, or the node is at or below an excluded one
that is reached from a root. -/
def CutOff (r : Recipe) (root n : Node) : Prop :=
  ¬ r.Eligible n ∨ ∃ x ∈ root.nodes, r.isOpen x = false ∧ n ∈ x.nodes

theorem not_cutOff {root n : Node} (hroot : root ∈ r.topology.root.nodes)
    (hway : root.Passes r.isOpen n) (heligible : r.Eligible n) : ¬ r.CutOff root n := by
  rintro (hnot | ⟨x, hx, hclosed, hn⟩)
  · exact hnot heligible
  · rw [Topology.kept_of_passes hroot hway hx hn] at hclosed
    cases hclosed

/-- The rings of a tree are those of nodes that a recipe covers from a root on. -/
structure Furnishes (r : Recipe) (root : Node) (t : Tree) : Prop where
  topology : t.topology = r.topology
  parent : t.parent = root.id
  mem_root : root ∈ r.topology.root.nodes
  region : t.region = r.region
  rings : ∀ id ring, t.ring? id = some ring →
    ∃ v name, r.Covered root v name ∧ v.id = id ∧ r.RingFor v name ring

namespace Furnishes

variable {root n : Node} {t : Tree}

theorem ring?_eq_none (h : r.Furnishes root t) (hn : n ∈ r.topology.root.nodes)
    (hcut : r.CutOff root n) : t.ring? n.id = none := by
  rw [Option.eq_none_iff_forall_ne_some]
  intro ring hring
  obtain ⟨v, name, hv, hid, -⟩ := h.rings _ _ hring
  obtain rfl := r.topology.eq_of_id_eq (Node.mem_nodes_trans hv.mem_nodes h.mem_root) hn hid
  exact not_cutOff h.mem_root hv.passes hv.eligible hcut

theorem not_mem_owners (h : r.Furnishes root t) (hn : n ∈ r.topology.root.nodes)
    (hcut : r.CutOff root n) {id : NodeId} {ring : Ring} (hring : t.ring? id = some ring)
    {e : Entry} (he : e ∈ ring.entries.toList) : n.id ∉ e.owners.every := by
  intro howns
  obtain ⟨v, name, hv, -, hfor⟩ := h.rings _ _ hring
  have hmem := Node.mem_nodes_trans hv.mem_nodes h.mem_root
  obtain ⟨child, hchild, hid, heligible⟩ := hfor.owners e he n.id howns
  obtain rfl := r.topology.eq_of_id_eq (r.topology.mem_nodes_of_child hmem hchild) hn hid
  exact not_cutOff h.mem_root (hv.passes.down hchild heligible.isOpen) heligible hcut

end Furnishes

end Recipe

/-! ### The tree -/

namespace Builder

variable {b : Builder} {r : Recipe} {prior : Option Tree} {t : Tree} {root v : Node} {name : String}

namespace Outcome

theorem ringFor (h : b.Outcome r prior (.ok t)) (hroot : r.topology.node r.parent = .ok root)
    (hv : r.Covered root v name) {ring : Ring} (hring : t.ring? v.id = some ring) :
    r.RingFor v name ring := by
  have hmem := (Topology.node_eq_ok_iff.1 hroot).1
  obtain ⟨made, hmade, hring'⟩ := h.exists_ring hroot hv
  obtain rfl := Option.some.inj (hring'.symm.trans hring)
  exact Recipe.ringFor_of_ring (Node.mem_nodes_trans hv.mem_nodes hmem) hmade

theorem furnishes (h : b.Outcome r prior (.ok t)) (hroot : r.topology.node r.parent = .ok root) :
    r.Furnishes root t := by
  obtain ⟨hmem, hid⟩ := Topology.node_eq_ok_iff.1 hroot
  obtain ⟨_, -, -, ht⟩ := h.exists_root
  have hparent : t.parent = root.id := by
    rw [ht]
    exact hid.symm
  refine ⟨by rw [ht]; rfl, hparent, hmem, by rw [ht]; rfl, fun id ring hring => ?_⟩
  obtain ⟨v, name, hv, rfl, -⟩ := (h.ring?_eq_some_iff hroot).1 hring
  exact ⟨v, name, hv, rfl, h.ringFor hroot hv hring⟩

theorem not_reports {e : Error} (h : b.Outcome r prior (.error e)) (node : NodeId) :
    ¬ e.Reports (.noMembers node) := by
  rcases h.error with hroot | ⟨root, v, name, hroot, hv, hring⟩
  · unfold Topology.node at hroot
    split at hroot
    · cases hroot
    · obtain rfl := Except.error.inj hroot
      exact fun hreports => hreports
  · have hmem := (Topology.node_eq_ok_iff.1 hroot).1
    exact Recipe.not_reports_of_ring (Node.mem_nodes_trans hv.mem_nodes hmem) hv hring node

end Outcome

/-- A tree that was built, in whatever order, has a ring for each covered node and for no other, and
the ring is what the recipe asks for there. So no node that is cut off, not being eligible or lying
below an excluded node from the parent on, has a ring or owns anything. Replicas are only placed on
some members, and no build, successful or not, reports that there are none. -/
theorem outcome_covers {result : Except Error Tree} (h : b.Outcome r prior result) :
    (∀ t, result = .ok t → ∃ root, r.topology.node r.parent = .ok root ∧
      (∀ id, (t.ring? id).isSome ↔ ∃ v name, r.Covered root v name ∧ v.id = id) ∧
      (∀ v name ring, r.Covered root v name → t.ring? v.id = some ring → r.RingFor v name ring) ∧
      ∀ n ∈ r.topology.root.nodes, r.CutOff root n →
        t.ring? n.id = none ∧ ∀ id ring, t.ring? id = some ring →
          ∀ e ∈ ring.entries.toList, n.id ∉ e.owners.every) ∧
      (∀ root v name policy, r.topology.node r.parent = .ok root → r.Covered root v name →
        (r.request v policy).members ≠ []) ∧
      ∀ e node, result = .error e → ¬ e.Reports (.noMembers node) := by
  refine ⟨?_, ?_, ?_⟩
  · rintro t rfl
    obtain ⟨root, hroot, -⟩ := h.exists_root
    have hf := h.furnishes hroot
    refine ⟨root, hroot, fun id => h.isSome_ring?_iff hroot,
      fun v name ring hv hring => h.ringFor hroot hv hring, fun n hn hcut => ?_⟩
    exact ⟨hf.ring?_eq_none hn hcut, fun id ring hring e he => hf.not_mem_owners hn hcut hring he⟩
  · intro root v name policy _ hv
    exact Recipe.members_ne_nil hv.eligible hv.isServer_eq_false
  · rintro e node rfl
    exact h.not_reports node

/-- The policies of a cluster, with a primary and a secondary rack, and of a rack, with one
server. -/
def twoRacksPolicies : PolicyGroup :=
  .ofList [⟨"cluster", .root, ⟨1, [⟨.rack, "rack", none⟩]⟩, some ⟨1, []⟩⟩,
    ⟨"rack", .rack, ⟨1, []⟩, none⟩]

/-- A recipe for the cluster of two racks, on eight coordinates. -/
def twoRacksRecipe (parent policyName : String) (excluded : List NodeId) : Recipe where
  topology := Tree.twoRacks
  parent
  policies := twoRacksPolicies
  policyName
  weights := .uniform
  exclusions := .ofList excluded
  hostGroups := .empty
  chosenGroups := []
  chosenServers := none
  version := 1
  created := 0
  region := Tree.twoRacksTree.region

/-- The builder with the standard configuration. -/
def standard : Builder :=
  ⟨.standard, by decide +kernel⟩

/-- With the second rack excluded, its server owns nothing. -/
theorem outcome_covers_secondRackExcluded :
    ∃ t, standard.Outcome (twoRacksRecipe "cluster" "cluster" ["s"]) none (.ok t) ∧
      t.nodes = ["cluster", "r"] ∧ t.ring? "s" = none ∧
      ∀ id ring, t.ring? id = some ring → ∀ e ∈ ring.entries.toList, "c" ∉ e.owners.every := by
  obtain ⟨t, houtcome, hnodes⟩ := exists_outcome
    (show ((standard.build (twoRacksRecipe "cluster" "cluster" ["s"]) none).toOption.any fun t =>
      t.nodes = ["cluster", "r"]) = true by decide +kernel)
  obtain ⟨root, hroot, -, -, hcut⟩ := (outcome_covers houtcome).1 t rfl
  obtain rfl : Tree.twoRacks.root = root :=
    Except.ok.inj ((Topology.node_eq_ok_iff.2 ⟨Node.self_mem_nodes _, rfl⟩).symm.trans hroot)
  have hrack : Node.group "s" .rack [.server "c"] ∈ Tree.twoRacks.root.nodes := by decide +kernel
  have hserver : Node.server "c" ∈ Tree.twoRacks.root.nodes := by decide +kernel
  have hclosed : (twoRacksRecipe "cluster" "cluster" ["s"]).isOpen
      (.group "s" .rack [.server "c"]) = false := by decide +kernel
  refine ⟨t, houtcome, of_decide_eq_true hnodes, ?_, ?_⟩
  · exact (hcut _ hrack (Or.inr ⟨_, hrack, hclosed, Node.self_mem_nodes _⟩)).1
  · exact (hcut _ hserver (Or.inr ⟨_, hrack, hclosed, by decide⟩)).2

/-- Only nodes from the parent on count: below an excluded node, a rack that is the parent itself
gets its ring all the same. -/
theorem exists_ring_below_excluded :
    ¬ ∀ (b : Builder) (r : Recipe) (prior : Option Tree) (t : Tree), b.Outcome r prior (.ok t) →
      ∀ n ∈ r.topology.root.nodes,
        (∃ x ∈ r.topology.root.nodes, r.isOpen x = false ∧ ∃ child ∈ x.children, n ∈ child.nodes) →
          t.ring? n.id = none ∧ ∀ id ring, t.ring? id = some ring →
            ∀ e ∈ ring.entries.toList, n.id ∉ e.owners.every := by
  intro h
  obtain ⟨t, houtcome, hring⟩ := exists_outcome
    (show ((standard.build (twoRacksRecipe "r" "rack" ["cluster"]) none).toOption.any fun t =>
      (t.ring? "r").isSome) = true by decide +kernel)
  have hrack : Node.group "r" .rack [.server "a", .server "b"] ∈ Tree.twoRacks.root.children := by
    decide +kernel
  have hnone : t.ring? "r" = none := (h _ _ _ t houtcome _
    (Node.mem_nodes_of_child hrack (Node.self_mem_nodes _))
    ⟨_, Node.self_mem_nodes _, by decide +kernel, _, hrack, Node.self_mem_nodes _⟩).1
  rw [hnone] at hring
  cases hring

end Builder

end ReplicaRing
