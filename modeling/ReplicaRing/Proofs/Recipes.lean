import ReplicaRing.Proofs.Topologies
import ReplicaRing.Recipe

/-!
# What a recipe covers

A node is eligible if a server that takes part is reached from it without passing an excluded node
(`Recipe.Eligible`, `Recipe.canOwn_iff`). The nodes that get a ring are those that a recipe covers:
the start, and from each covered node on the children to which one of its rules applies
(`Recipe.Covered`). Seen from the start, they are the start and what each of its children covers
under its own policy (`Recipe.covered_iff`).
-/

namespace ReplicaRing

namespace StoragePolicy

/-- The rules for the next level down, those of the primary role first. -/
def rules (p : StoragePolicy) : List ChildRule :=
  p.primary.children ++ (p.secondary.map RolePolicy.children).getD []

/-- The policy that the first rule for a child names. -/
def firstFor? (p : StoragePolicy) (child : Node) : Option String :=
  (p.rules.find? (·.covers child.nodeClass child.id)).map ChildRule.policy

theorem head?_namesFor (p : StoragePolicy) (child : Node) :
    (p.namesFor child.nodeClass child.id).head? = p.firstFor? child := by
  have hnames : (p.primary :: p.secondary.toList).flatMap (·.namesFor child.nodeClass child.id) =
      (p.rules.filter (·.covers child.nodeClass child.id)).map ChildRule.policy := by
    unfold rules RolePolicy.namesFor
    cases p.secondary <;> simp
  unfold namesFor firstFor?
  rw [hnames, ← List.head?_filter]
  cases p.rules.filter (·.covers child.nodeClass child.id) with
  | nil => rfl
  | cons rule rest => rw [List.map_cons, List.eraseDups_cons]; rfl

end StoragePolicy

namespace Recipe

variable {r : Recipe}

/-! ### Eligible nodes -/

def isOpen (r : Recipe) (node : Node) : Bool :=
  !r.exclusions.excludes node.id

/-- A server is reached from a node, and no node on the way, both ends included, is excluded. -/
def Reaches (r : Recipe) (node : Node) (server : NodeId) : Prop :=
  node.LeadsTo r.isOpen server

/-- A server that takes part is reached from a node. -/
def Eligible (r : Recipe) (node : Node) : Prop :=
  ∃ server, r.Reaches node server ∧ r.selects server = true

theorem canOwn_iff {node : Node} : r.canOwn node = true ↔ r.Eligible node :=
  Node.reaches_eq_true_iff

theorem Eligible.isOpen {node : Node} (h : r.Eligible node) : r.isOpen node = true := by
  obtain ⟨server, hreaches, -⟩ := h
  exact hreaches.kept

/-- An eligible group has an eligible child. -/
theorem Eligible.exists_child {node : Node} (h : r.Eligible node) (hgroup : node.isServer = false) :
    ∃ child ∈ node.children, r.Eligible child := by
  obtain ⟨server, hreaches, hselects⟩ := h
  cases hreaches with
  | server _ => cases hgroup
  | group _ hchild hrest => exact ⟨_, hchild, server, hrest, hselects⟩

theorem mem_owningChildren {node child : Node} :
    child ∈ r.owningChildren node ↔ child ∈ node.children ∧ r.Eligible child := by
  unfold owningChildren
  rw [List.mem_filter, canOwn_iff]

theorem mem_memberIds {node : Node} {policy : StoragePolicy} {id : NodeId} :
    id ∈ (r.request node policy).memberIds ↔
      ∃ child ∈ node.children, child.id = id ∧ r.Eligible child := by
  unfold PlacementRequest.memberIds request members
  simp only [List.map_map, List.mem_map, mem_owningChildren, Function.comp_apply]
  constructor
  · rintro ⟨child, ⟨hchild, heligible⟩, rfl⟩
    exact ⟨child, hchild, rfl, heligible⟩
  · rintro ⟨child, hchild, rfl, heligible⟩
    exact ⟨child, ⟨hchild, heligible⟩, rfl⟩

theorem nodup_memberIds {node : Node} (hnode : (node.children.map Node.id).Nodup)
    (policy : StoragePolicy) : (r.request node policy).memberIds.Nodup := by
  have hids : (r.request node policy).memberIds = (r.owningChildren node).map Node.id := by
    unfold PlacementRequest.memberIds request members
    rw [List.map_map]
    rfl
  rw [hids]
  exact hnode.sublist (List.filter_sublist.map _)

theorem members_ne_nil {node : Node} (h : r.Eligible node) (hgroup : node.isServer = false) :
    r.members node ≠ [] := by
  obtain ⟨child, hchild, heligible⟩ := h.exists_child hgroup
  exact List.ne_nil_of_mem (List.mem_map_of_mem (mem_owningChildren.2 ⟨hchild, heligible⟩))

/-! ### Covered nodes -/

/-- What a recipe covers from a node on, and the name of the policy that holds there: the node
itself, if it is eligible and has children, and each eligible group below a covered node to which a
rule of the policy there applies. -/
inductive Covered (r : Recipe) (start : Node) : Node → String → Prop
  | start (children : start.children ≠ []) (eligible : r.Eligible start) :
    Covered r start start r.policyName
  | down {v child : Node} {name next : String} {policy : StoragePolicy}
    (above : Covered r start v name) (named : r.policies.policy name = .ok policy)
    (mem : child ∈ v.children) (group : child.isServer = false) (eligible : r.Eligible child)
    (first : policy.firstFor? child = some next) : Covered r start child next

theorem expands_iff {node : Node} :
    r.expands node = true ↔ node.children ≠ [] ∧ r.Eligible node := by
  unfold expands
  rw [Bool.and_eq_true, canOwn_iff]
  simp

theorem childPolicy?_eq_some {policy : StoragePolicy} {child : Node} {name : String} :
    r.childPolicy? policy child = some name ↔
      child.isServer = false ∧ r.Eligible child ∧ policy.firstFor? child = some name := by
  unfold childPolicy?
  rw [← canOwn_iff, ← StoragePolicy.head?_namesFor]
  cases child.isServer <;> cases r.canOwn child <;> simp

theorem isServer_eq_false_of_children {node : Node} (h : node.children ≠ []) :
    node.isServer = false := by
  cases node with
  | server id => exact absurd rfl h
  | group => rfl

variable {start v : Node} {name : String}

theorem Covered.eligible (h : r.Covered start v name) : r.Eligible v := by
  cases h with
  | start _ heligible => exact heligible
  | down _ _ _ _ heligible => exact heligible

theorem Covered.isServer_eq_false (h : r.Covered start v name) : v.isServer = false := by
  cases h with
  | start hchildren => exact isServer_eq_false_of_children hchildren
  | down _ _ _ hgroup => exact hgroup

/-- No node on the way to a covered node is excluded. -/
theorem Covered.passes (h : r.Covered start v name) : start.Passes r.isOpen v := by
  induction h with
  | start _ heligible => exact .start heligible.isOpen
  | down _ _ hchild _ heligible _ ih => exact .down ih hchild heligible.isOpen

theorem Covered.mem_nodes (h : r.Covered start v name) : v ∈ start.nodes :=
  h.passes.mem_nodes

/-- What is covered below a child that is covered under its own policy is covered from above. -/
theorem Covered.of_narrow (hexpands : r.expands start = true) {policy : StoragePolicy}
    (hpolicy : r.policy = .ok policy) {child : Node} (hchild : child ∈ start.children)
    {next : String} (hnext : r.childPolicy? policy child = some next)
    (h : (r.narrow child next).Covered child v name) : r.Covered start v name := by
  obtain ⟨hchildren, heligible⟩ := expands_iff.1 hexpands
  obtain ⟨hgroup, hchildEligible, hfirst⟩ := childPolicy?_eq_some.1 hnext
  induction h with
  | start _ _ =>
    exact .down (.start hchildren heligible) hpolicy hchild hgroup hchildEligible hfirst
  | down _ hnamed hmem hgroup heligible hfirst ih =>
    exact .down ih hnamed hmem hgroup heligible hfirst

/-- A start that is expanded is covered, and so is what its children cover, each under the policy
that is named for it first. -/
theorem covered_iff : r.Covered start v name ↔ r.expands start = true ∧
    (v = start ∧ name = r.policyName ∨
      ∃ policy child next, r.policy = .ok policy ∧ child ∈ start.children ∧
        r.childPolicy? policy child = some next ∧ (r.narrow child next).Covered child v name) := by
  constructor
  · intro h
    induction h with
    | start hchildren heligible =>
      exact ⟨expands_iff.2 ⟨hchildren, heligible⟩, Or.inl ⟨rfl, rfl⟩⟩
    | @down v child name next policy _ hnamed hmem hgroup heligible hfirst ih =>
      refine ⟨ih.1, Or.inr ?_⟩
      rcases ih.2 with ⟨rfl, rfl⟩ | ⟨policy', child', next', hpolicy', hmem', hnext', hcovered⟩
      · refine ⟨policy, child, next, hnamed, hmem,
          childPolicy?_eq_some.2 ⟨hgroup, heligible, hfirst⟩, .start ?_ heligible⟩
        obtain ⟨below, hbelow, -⟩ := heligible.exists_child hgroup
        exact List.ne_nil_of_mem hbelow
      · exact ⟨policy', child', next', hpolicy', hmem', hnext',
          .down hcovered hnamed hmem hgroup heligible hfirst⟩
  · rintro ⟨hexpands, ⟨rfl, rfl⟩ | ⟨policy, child, next, hpolicy, hmem, hnext, hcovered⟩⟩
    · obtain ⟨hchildren, heligible⟩ := expands_iff.1 hexpands
      exact .start hchildren heligible
    · exact .of_narrow hexpands hpolicy hmem hnext hcovered

end Recipe

end ReplicaRing
