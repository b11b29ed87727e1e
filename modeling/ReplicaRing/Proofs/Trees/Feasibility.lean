import ReplicaRing.Proofs.Trees.Striking

/-!
# What the feasibility check answers

* `ReplicaMap.checkFeasible_eq_ok_iff`: the check of a replica map passes exactly if every
  coordinate has a primary server that is not excluded itself.
* `Builder.checkFeasible_of_outcome`: so does the check of a tree, once the tree is flattened. As
  long as no group below the parent is excluded, this is the same as a primary server that the
  recipe still reaches with the exclusions added.
* `Builder.exists_feasible_below_excluded`: with an excluded group it is not. The replica map lists
  servers only, and the check passes over every excluded group above them.

The way down to a server that comes up from the tree is known (`Recipe.SoundUnder`), so all that the
check adds is that the server at its end is not excluded (`Node.LeadsTo.leadsBelow`).
-/

namespace ReplicaRing

/-- Whether a node itself is not excluded. -/
def Exclusions.admits (E : Exclusions) (node : Node) : Bool :=
  !E.excludes node.id

/-! ### Ways down, without their start -/

namespace Node

variable {keep keep' : Node → Bool} {v x : Node} {server : NodeId}

/-- A server is reached from a node through nodes that all satisfy `keep`, whatever the node itself
satisfies, unless it is the server. -/
def LeadsBelow (keep : Node → Bool) : Node → NodeId → Prop
  | .server id, server => keep (.server id) = true ∧ server = id
  | .group _ _ children, server => ∃ child ∈ children, child.LeadsTo keep server

theorem LeadsTo.kept_server (h : v.LeadsTo keep server) : keep (.server server) = true := by
  induction h with
  | server hkept => exact hkept
  | group _ _ _ ih => exact ih

theorem LeadsBelow.kept_server (h : v.LeadsBelow keep server) : keep (.server server) = true := by
  cases v with
  | server id =>
    obtain ⟨hkept, rfl⟩ := h
    exact hkept
  | group id nodeClass children =>
    obtain ⟨child, -, hleads⟩ := h
    exact hleads.kept_server

theorem LeadsTo.imp (h : v.LeadsTo keep server)
    (himp : ∀ x ∈ v.nodes, .server server ∈ x.nodes → keep x = true → keep' x = true) :
    v.LeadsTo keep' server := by
  induction h with
  | server hkept => exact .server (himp _ (self_mem_nodes _) (self_mem_nodes _) hkept)
  | @group id nodeClass children child _ hkept hchild hrest ih =>
    have hbelow : ∀ x ∈ child.nodes, x ∈ (Node.group id nodeClass children).nodes :=
      fun x hx => mem_nodes_of_child hchild hx
    have hstart := himp _ (self_mem_nodes _) (hbelow _ hrest.mem_nodes) hkept
    exact .group hstart hchild (ih fun x hx => himp x (hbelow x hx))

/-- Of a way down that starts at the node itself, the start may be left out. -/
theorem LeadsTo.leadsBelow (h : v.LeadsTo keep server)
    (himp : ∀ x ∈ v.nodes, .server server ∈ x.nodes → x ≠ v ∨ x.isServer = true →
      keep x = true → keep' x = true) : v.LeadsBelow keep' server := by
  cases h with
  | server hkept =>
    exact ⟨himp _ (self_mem_nodes _) (self_mem_nodes _) (Or.inr rfl) hkept, rfl⟩
  | group hkept hchild hrest =>
    refine ⟨_, hchild, hrest.imp fun x hx hserver => ?_⟩
    exact himp x (mem_nodes_of_child hchild hx) hserver (Or.inl (ne_of_mem_child hchild hx))

end Node

/-! ### The check of a replica map -/

namespace ReplicaMap

variable {m : ReplicaMap} {E : Exclusions}

/-- Some entry of a map holds each coordinate of its region. -/
theorem exists_entry {c : Nat} (hc : c ∈ m.region) :
    ∃ e ∈ m.entries.toList, c ∈ e.region ∧ m.ownersAt c .primary = e.owners.primary := by
  have hsome := (m.tiles.isSome_valueAt? c).2 hc
  obtain ⟨owners, hvalue⟩ := Option.isSome_iff_exists.1 hsome
  obtain ⟨e, he, hce, rfl⟩ := Run.mem_of_valueAt?_eq_some hvalue
  exact ⟨e, he, hce, (ownersAt_of_valueAt? hvalue .primary).trans e.owners.inMode_primary⟩

/-- An entry of a map has the owners of its first coordinate. -/
theorem valueAt?_first {e : Entry} (he : e ∈ m.entries.toList) :
    e.region.first ∈ m.region ∧ Run.valueAt? m.entries.toList e.region.first = some e.owners := by
  have hfirst : e.region.first ∈ e.region := ⟨Nat.le_refl _, e.region.first_le_last⟩
  have hbounds := m.tiles.bounds he
  have hle := e.region.first_le_last
  exact ⟨Region.mem_iff.2 (by omega), m.tiles.valueAt?_of_mem he hfirst⟩

theorem checkFeasible_eq_ok_iff : m.checkFeasible E = .ok () ↔
    ∀ c ∈ m.region, ∃ server ∈ m.ownersAt c .primary, E.excludes server = false := by
  have hpasses : m.checkFeasible E = .ok () ↔
      ∀ e ∈ m.entries.toList, E.filter e.owners.primary ≠ [] := by
    unfold checkFeasible infeasible?
    cases hfound : m.entries.toList.find? fun e => E.filter e.owners.primary = [] with
    | none =>
      rw [List.find?_eq_none] at hfound
      simpa using hfound
    | some e =>
      have hmem := List.mem_of_find?_eq_some hfound
      have hall : E.filter e.owners.primary = [] := by simpa using List.find?_some hfound
      exact iff_of_false (fun h => by cases h) fun h => h e hmem hall
  have hkept : ∀ ids, E.filter ids ≠ [] ↔ ∃ id ∈ ids, E.excludes id = false := by
    intro ids
    rw [ne_eq, Exclusions.filter_eq_nil_iff]
    simp
  rw [hpasses]
  simp only [hkept]
  constructor
  · intro h c hc
    obtain ⟨e, he, -, howners⟩ := exists_entry hc
    rw [howners]
    exact h e he
  · intro h e he
    obtain ⟨hfirst, hvalue⟩ := valueAt?_first he
    rw [← e.owners.inMode_primary, ← ownersAt_of_valueAt? hvalue]
    exact h _ hfirst

end ReplicaMap

theorem Tree.checkFeasible_eq_ok_iff {t : Tree} {id : NodeId} {E : Exclusions} :
    t.checkFeasible id E = .ok () ↔ ∃ map, t.flatten id = .ok map ∧
      ∀ c ∈ t.region, ∃ server ∈ map.ownersAt c .primary, E.excludes server = false := by
  unfold Tree.checkFeasible
  rw [bind_eq_ok]
  refine exists_congr fun map => and_congr_right fun hmap => ?_
  rw [ReplicaMap.checkFeasible_eq_ok_iff, region_of_flatten hmap]

/-! ### Servers that are still reached -/

namespace Recipe

variable {r : Recipe} {root v : Node} {t : Tree} {E : Exclusions} {c depth : Nat} {o : Owners}
  {server : NodeId}

/-- The recipe with more nodes excluded. -/
def excluding (r : Recipe) (E : Exclusions) : Recipe :=
  { r with exclusions := r.exclusions.union E }

theorem isOpen_excluding (node : Node) :
    (r.excluding E).isOpen node = (r.isOpen node && E.admits node) := by
  have hunion : (r.exclusions.union E).excludes node.id =
      (r.exclusions.excludes node.id || E.excludes node.id) :=
    Std.ExtTreeSet.contains_union
  unfold isOpen Exclusions.admits excluding
  rw [hunion, Bool.not_or]

/-- A server takes part, and is reached from below a node. -/
def Serves (r : Recipe) (v : Node) (server : NodeId) : Prop :=
  v.LeadsBelow r.isOpen server ∧ r.selects server = true

/-- A node from which anything comes up is eligible, unless it is a server. -/
theorem Furnishes.eligible (h : r.Furnishes root t) (hv : v ∈ r.topology.root.nodes)
    (hgroup : v.isServer = false) (ho : t.ownersUnder c depth v.id = .ok o) : r.Eligible v := by
  obtain ⟨ring, hring⟩ := Tree.exists_ring_of_ownersUnder (h.node_eq_ok hv) hgroup ho
  exact (h.ring_spec hv hring).2.1

/-- If no group below a node is excluded, then every server that comes up from the node and is not
excluded is still reached from below the node. -/
theorem Furnishes.still_serves (h : r.Furnishes root t) (hv : v ∈ r.topology.root.nodes)
    (hgroups : ∀ x ∈ v.nodes, x ≠ v → E.excludes x.id = true → x.isServer = true)
    (ho : t.ownersUnder c depth v.id = .ok o) (hserver : server ∈ o.every)
    (hkept : E.excludes server = false) :
    v.LeadsBelow E.admits server ∧ (r.Eligible v → (r.excluding E).Serves v server) := by
  -- On the way to the server there are groups, and the server itself.
  have hway : ∀ x ∈ v.nodes, .server server ∈ x.nodes → x ≠ v ∨ x.isServer = true →
      E.admits x = true := by
    intro x hx hbelow hstart
    have hexcluded : E.excludes x.id = false := by
      cases x with
      | server id =>
        obtain rfl : server = id := Node.server.inj (List.mem_singleton.1 hbelow)
        exact hkept
      | group id nodeClass children =>
        have hne := hstart.resolve_right (by simp [Node.isServer])
        refine Bool.eq_false_iff.2 fun hout => ?_
        cases hgroups _ hx hne hout
    unfold Exclusions.admits
    rw [hexcluded]
    rfl
  have hreached : r.Eligible v → r.Reaches v server ∧ r.selects server = true :=
    fun heligible => (h.sound hv heligible ho).reached server hserver
  constructor
  · cases hv' : v.isServer with
    | false =>
      have hreaches := (hreached (h.eligible hv hv' ho)).1
      exact hreaches.leadsBelow fun x hx hbelow hstart _ => hway x hx hbelow hstart
    | true =>
      cases v with
      | group id nodeClass children => cases hv'
      | server id =>
        cases depth with
        | zero => cases ho
        | succ depth =>
          rw [Tree.ownersUnder_of_server (h.node_eq_ok hv) hv'] at ho
          obtain rfl := Except.ok.inj ho
          obtain rfl : server = id := List.mem_singleton.1 hserver
          exact ⟨hway _ (Node.self_mem_nodes _) (Node.self_mem_nodes _) (Or.inr rfl), rfl⟩
  · intro heligible
    obtain ⟨hreaches, hselects⟩ := hreached heligible
    refine ⟨hreaches.leadsBelow fun x hx hbelow hstart hopen => ?_, hselects⟩
    rw [isOpen_excluding, hopen, hway x hx hbelow hstart]
    rfl

end Recipe

/-! ### The check of a tree -/

namespace Builder

variable {b : Builder} {r : Recipe} {prior : Option Tree} {t : Tree}

/-- The check of a tree that was built passes exactly if the tree is flattened and every coordinate
has a primary server that is not excluded itself. If no group below the parent is excluded, that is a
primary server to which no excluded node cuts the way from below the parent, one that the recipe
still reaches with the exclusions added. -/
theorem checkFeasible_of_outcome (h : b.Outcome r prior (.ok t)) (E : Exclusions) :
    (t.checkFeasible t.parent E = .ok () ↔ ∃ map, t.flatten t.parent = .ok map ∧
      ∀ c ∈ t.region, ∃ server ∈ map.ownersAt c .primary, E.excludes server = false) ∧
    ∀ root, r.topology.node r.parent = .ok root →
      (∀ x ∈ root.nodes, x ≠ root → E.excludes x.id = true → x.isServer = true) →
      (t.checkFeasible t.parent E = .ok () ↔ ∃ map, t.flatten t.parent = .ok map ∧
        ∀ c ∈ t.region, ∃ server ∈ map.ownersAt c .primary, root.LeadsBelow E.admits server ∧
          (r.Eligible root → (r.excluding E).Serves root server)) := by
  refine ⟨Tree.checkFeasible_eq_ok_iff, fun root hroot hgroups => ?_⟩
  have hf := h.furnishes hroot
  rw [Tree.checkFeasible_eq_ok_iff]
  refine exists_congr fun map => and_congr_right fun hmap => forall₂_congr fun c hc => ?_
  refine exists_congr fun server => and_congr_right fun hserver => ?_
  obtain ⟨o, ho, hvalue⟩ := Tree.exists_owners_of_flatten hf.encloses hmap hc
  rw [ReplicaMap.ownersAt_of_valueAt? hvalue, Owners.inMode_primary] at hserver
  constructor
  · intro hkept
    rw [hf.parent] at ho
    exact hf.still_serves hf.mem_root hgroups ho (Owners.mem_every.2 (Or.inl hserver)) hkept
  · rintro ⟨hleads, -⟩
    simpa [Exclusions.admits, Node.id] using hleads.kept_server

/-- The two servers of the first rack stand in for each other. -/
theorem checkFeasible_of_outcome_secondServer :
    ∃ t map, standard.Outcome pairedRecipe none (.ok t) ∧
      t.checkFeasible t.parent (.ofList ["b"]) = .ok () ∧ t.flatten t.parent = .ok map ∧
      ∀ c ∈ t.region, ∃ server ∈ map.ownersAt c .primary,
        (pairedRecipe.excluding (.ofList ["b"])).Serves Tree.twoRacks.root server := by
  obtain ⟨t, houtcome, htest⟩ := exists_outcome
    (show ((standard.build pairedRecipe none).toOption.any fun t =>
      (t.checkFeasible t.parent (.ofList ["b"])).toOption = some ()) = true by decide +kernel)
  have hpasses := toOption_eq_some.1 (of_decide_eq_true htest)
  have hroot : pairedRecipe.topology.node pairedRecipe.parent = .ok Tree.twoRacks.root :=
    Topology.node_eq_ok_iff.2 ⟨Node.self_mem_nodes _, rfl⟩
  have hgroups : ∀ x ∈ Tree.twoRacks.root.nodes, x ≠ Tree.twoRacks.root →
      (Exclusions.ofList ["b"]).excludes x.id = true → x.isServer = true := by decide +kernel
  have heligible : pairedRecipe.Eligible Tree.twoRacks.root :=
    Recipe.canOwn_iff.1 (by decide +kernel)
  obtain ⟨map, hmap, hservers⟩ :=
    ((checkFeasible_of_outcome houtcome (.ofList ["b"])).2 _ hroot hgroups).1 hpasses
  refine ⟨t, map, houtcome, hpasses, hmap, fun c hc => ?_⟩
  obtain ⟨server, hserver, -, hserves⟩ := hservers c hc
  exact ⟨server, hserver, hserves heligible⟩

/-- With the first rack excluded the check still passes, though every primary server of some
coordinate lies in that rack. -/
theorem exists_feasible_below_excluded :
    ¬ ∀ (b : Builder) (r : Recipe) (prior : Option Tree) (t : Tree) (root : Node) (E : Exclusions),
      b.Outcome r prior (.ok t) → r.topology.node r.parent = .ok root →
      t.checkFeasible t.parent E = .ok () → ∃ map, t.flatten t.parent = .ok map ∧
        ∀ c ∈ t.region, ∃ server ∈ map.ownersAt c .primary, root.LeadsBelow E.admits server := by
  intro h
  obtain ⟨t, houtcome, htest⟩ := exists_outcome
    (show ((standard.build (twoRacksRecipe "cluster" "cluster" []) none).toOption.any fun t =>
      (t.checkFeasible t.parent (.ofList ["r"])).toOption = some () ∧ 0 ∈ t.region ∧
        (t.flatten t.parent).toOption.map (·.ownersAt 0 .primary) = some ["a"]) = true
      by decide +kernel)
  obtain ⟨hpasses, hregion, hvalue⟩ := of_decide_eq_true htest
  have hroot : (twoRacksRecipe "cluster" "cluster" []).topology.node
      (twoRacksRecipe "cluster" "cluster" []).parent = .ok Tree.twoRacks.root :=
    Topology.node_eq_ok_iff.2 ⟨Node.self_mem_nodes _, rfl⟩
  obtain ⟨map, hmap, hservers⟩ :=
    h _ _ _ t _ (.ofList ["r"]) houtcome hroot (toOption_eq_some.1 hpasses)
  rw [hmap] at hvalue
  have howners : map.ownersAt 0 .primary = ["a"] := Option.some.inj hvalue
  obtain ⟨server, hserver, child, hchild, hleads⟩ := hservers 0 hregion
  rw [howners, List.mem_singleton] at hserver
  subst hserver
  -- The only way to the server goes through the rack.
  have hblocked : ∀ child ∈ Tree.twoRacks.root.children,
      child.reaches (Exclusions.ofList ["r"]).admits (· == "a") = false := by decide +kernel
  have hreaches : child.reaches (Exclusions.ofList ["r"]).admits (· == "a") = true :=
    Node.reaches_eq_true_iff.2 ⟨"a", hleads, rfl⟩
  rw [hblocked child hchild] at hreaches
  cases hreaches

end Builder

end ReplicaRing
