import ReplicaRing.Proofs.Trees.Feasibility

/-!
# Striking nodes of any class from a tree

* `Tree.Struck.exists_pruned`: a struck tree still routes every coordinate that the tree routed, to
  primary servers that were primary servers before, and past no node that was struck.
* `Builder.flatten_of_without`: so the struck tree is flattened whenever the tree was, and whatever
  can be struck from a tree passes the feasibility check.

The ring of a struck node stays in the tree, but nothing above names the node any more, so no
coordinate comes to it. Nothing gets lost on the way down either: what is left of an entry has a
primary owner, and by induction on the depth a primary server comes up from that owner.
-/

namespace ReplicaRing

theorem Node.LeadsBelow.leadsTo {keep : Node → Bool} {v : Node} {server : NodeId}
    (h : v.LeadsBelow keep server) (hkept : keep v = true) : v.LeadsTo keep server := by
  cases v with
  | server id =>
    obtain ⟨-, rfl⟩ := h
    exact .server hkept
  | group id nodeClass children =>
    obtain ⟨child, hchild, hleads⟩ := h
    exact .group hkept hchild hleads

/-! ### What is left below a node -/

namespace Exclusions

variable {E : Exclusions} {v : Node}

/-- Of the owners that come up from a node, some primary ones are left and no new ones are there,
and no excluded node lies on the way to any of them. -/
structure Prunes (E : Exclusions) (v : Node) (o o' : Owners) : Prop where
  primary : o'.primary ≠ []
  subset : o'.primary ⊆ o.primary
  clear : ∀ server ∈ o'.every, v.LeadsBelow E.admits server

theorem mem_filterOwners_every {o : Owners} {id : NodeId} :
    id ∈ (E.filterOwners o).every ↔ id ∈ o.every ∧ E.excludes id = false := by
  unfold filterOwners
  rw [Owners.filter_every, List.mem_filter]
  simp

/-- What is left through the owners that stay is what was left below each of them. -/
theorem Prunes.through {o : Owners} {under under' : NodeId → Owners} (hgroup : v.isServer = false)
    (hprimary : (E.filterOwners o).primary ≠ [])
    (h : ∀ id ∈ (E.filterOwners o).every, ∃ child ∈ v.children, E.admits child = true ∧
      E.Prunes child (under id) (under' id)) :
    E.Prunes v (o.through under) ((E.filterOwners o).through under') := by
  have hevery : ∀ {id}, id ∈ (E.filterOwners o).primary → id ∈ (E.filterOwners o).every :=
    fun hid => Owners.mem_every.2 (Or.inl hid)
  refine ⟨?_, fun server hserver => ?_, fun server hserver => ?_⟩
  · obtain ⟨id, hid⟩ := List.exists_mem_of_ne_nil _ hprimary
    obtain ⟨child, -, -, hleft⟩ := h id (hevery hid)
    obtain ⟨server, hserver⟩ := List.exists_mem_of_ne_nil _ hleft.primary
    exact List.ne_nil_of_mem (Owners.mem_primary_through.2 ⟨id, hid, hserver⟩)
  · obtain ⟨id, hid, hmem⟩ := Owners.mem_primary_through.1 hserver
    obtain ⟨child, -, -, hleft⟩ := h id (hevery hid)
    have hbefore : id ∈ o.primary := List.mem_of_mem_filter hid
    exact Owners.mem_primary_through.2 ⟨id, hbefore, hleft.subset hmem⟩
  · obtain ⟨id, hid, hmem⟩ := Owners.exists_of_mem_every_through hserver
    obtain ⟨child, hchild, hkept, hleft⟩ := h id hid
    have hleads : child.LeadsTo E.admits server := (hleft.clear server hmem).leadsTo hkept
    cases v with
    | server id => cases hgroup
    | group id nodeClass children => exact ⟨child, hchild, hleads⟩

end Exclusions

/-! ### Routing in the struck tree -/

namespace Tree.Struck

variable {E : Exclusions} {t t' : Tree} {r : Recipe} {root v : Node} {c depth : Nat} {o : Owners}

/-- A coordinate that is routed from a node in a tree is routed from it in the struck tree. -/
theorem exists_pruned (h : t.Struck E t') (hf : r.Furnishes root t)
    (hv : v ∈ r.topology.root.nodes) (hstart : v.isServer = true → E.admits v = true)
    (ho : t.ownersUnder c depth v.id = .ok o) :
    ∃ o', t'.ownersUnder c depth v.id = .ok o' ∧ E.Prunes v o o' := by
  induction depth generalizing v o with
  | zero => cases ho
  | succ depth ih =>
    obtain ⟨node, hnode, hcases⟩ := ownersUnder_eq_ok.1 ho
    obtain rfl := Except.ok.inj ((hf.node_eq_ok hv).symm.trans hnode)
    have hnode' : t'.topology.node v.id = .ok v := by rw [h.topology, hnode]
    rcases hcases with ⟨hserver, rfl⟩ | ⟨hgroup, ring, owners, under, hring, hvalue, hunder, rfl⟩
    · refine ⟨_, ownersUnder_of_server hnode' hserver, List.cons_ne_nil _ _, List.Subset.refl _, ?_⟩
      intro server hmem
      obtain rfl := List.mem_singleton.1 hmem
      cases v with
      | server id => exact ⟨hstart rfl, rfl⟩
      | group id nodeClass children => cases hserver
    · obtain ⟨ring', hring', hstripped⟩ := h.struck v.id ring hring
      have hvalue' : Run.valueAt? ring'.entries.toList c = some (E.filterOwners owners) := by
        rw [(Ring.of_without? hstripped).2.2, hvalue]
        rfl
      have hprimary : (E.filterOwners owners).primary ≠ [] := by
        obtain ⟨e, he, -, heq⟩ := Run.mem_of_valueAt?_eq_some hvalue'
        rw [← heq]
        exact (ring'.hasPrimaries e he).1
      -- The owners that stay are children that are not excluded.
      have hbelow : ∀ id ∈ (E.filterOwners owners).every, ∃ o', t'.ownersUnder c depth id = .ok o' ∧
          ∃ child ∈ v.children, E.admits child = true ∧ E.Prunes child (under id) o' := by
        intro id hid
        obtain ⟨hbefore, hkept⟩ := Exclusions.mem_filterOwners_every.1 hid
        obtain ⟨child, hchild, rfl, -⟩ := hf.exists_child hv hring hvalue hbefore
        have hadmits : E.admits child = true := by simpa [Exclusions.admits] using hkept
        obtain ⟨o', ho', hleft⟩ := ih (r.topology.mem_nodes_of_child hv hchild) (fun _ => hadmits)
          (hunder _ hbefore)
        exact ⟨o', ho', child, hchild, hadmits, hleft⟩
      have : Inhabited Owners := ⟨⟨[], []⟩⟩
      choose! under' hunder' hleft using hbelow
      refine ⟨_, ?_, Exclusions.Prunes.through hgroup hprimary hleft⟩
      exact ownersUnder_eq_ok.2 ⟨v, hnode', Or.inr ⟨hgroup, ring', _, under', hring', hvalue',
        hunder', rfl⟩⟩

/-- The struck tree is flattened as well, to what is left of every coordinate. -/
theorem exists_pruned_map (h : t.Struck E t') (hf : r.Furnishes root t)
    (hgroup : root.isServer = false) {map : ReplicaMap} (hmap : t.flatten t.parent = .ok map) :
    ∃ map', t'.flatten t.parent = .ok map' ∧ map'.region = t.region ∧ ∀ c ∈ t.region, ∃ o o',
      Run.valueAt? map.entries.toList c = some o ∧ Run.valueAt? map'.entries.toList c = some o' ∧
        E.Prunes root o o' := by
  have hrings' : ∀ id ring', t'.ring? id = some ring' → ring'.region.Encloses t'.region := by
    intro id ring' hring'
    obtain ⟨ring, hring, hstripped⟩ := h.rings id ring' hring'
    rw [(Ring.of_without? hstripped).2.1, h.region]
    exact hf.encloses id ring hring
  have howners : ∀ c ∈ t.region, ∃ o o', Run.valueAt? map.entries.toList c = some o ∧
      t'.ownersUnder c t'.depthLimit t'.parent = .ok o' ∧ E.Prunes root o o' := by
    intro c hc
    obtain ⟨o, ho, hvalue⟩ := exists_owners_of_flatten hf.encloses hmap hc
    rw [hf.parent] at ho
    obtain ⟨o', ho', hleft⟩ := h.exists_pruned hf hf.mem_root (by simp [hgroup]) ho
    rw [h.depthLimit, h.parent, hf.parent]
    exact ⟨o, o', hvalue, ho', hleft⟩
  obtain ⟨map', hmap'⟩ := Tree.exists_flatten hrings' fun c hc => by
    rw [h.region] at hc
    obtain ⟨_, o', -, ho', -⟩ := howners c hc
    exact ⟨o', ho'⟩
  refine ⟨map', by rw [← h.parent, hmap'], (region_of_flatten hmap').trans h.region, ?_⟩
  intro c hc
  obtain ⟨o, o', hvalue, ho', hleft⟩ := howners c hc
  obtain ⟨o'', ho'', hvalue'⟩ := exists_owners_of_flatten hrings' hmap' (by rwa [h.region])
  obtain rfl := Except.ok.inj (ho'.symm.trans ho'')
  exact ⟨o, o', hvalue, hvalue', hleft⟩

end Tree.Struck

/-! ### Striking as a check -/

namespace Builder

variable {b : Builder} {r : Recipe} {prior : Option Tree} {t t' : Tree} {node : Node}
  {map : ReplicaMap} {E : Exclusions} {created : UInt64}

/-- Nodes of any class may be struck from a tree that was built, if its parent is a group and the
tree is flattened: unless that is refused, the struck tree is flattened too. At every coordinate some
of the primary servers are left and no others are there, no server is listed that lies at or below an
excluded node below the parent, and the exclusions pass the feasibility check of the tree. -/
theorem flatten_of_without (h : b.Outcome r prior (.ok t))
    (hnode : t.topology.node t.parent = .ok node) (hgroup : node.isServer = false)
    (hmap : t.flatten t.parent = .ok map) (hstrike : t.without? E created = .ok t') :
    (∃ map', t'.flatten t.parent = .ok map' ∧ map'.region = t.region ∧
      (∀ c ∈ t.region, map'.ownersAt c .primary ≠ [] ∧
        map'.ownersAt c .primary ⊆ map.ownersAt c .primary) ∧
      ∀ e ∈ map'.entries.toList, ∀ server ∈ e.owners.every,
        ∃ child ∈ node.children, child.LeadsTo E.admits server) ∧
    t.checkFeasible t.parent E = .ok () := by
  obtain ⟨root, hroot, -⟩ := h.exists_root
  have hf := h.furnishes hroot
  have hfound : t.topology.node t.parent = .ok root := by
    rw [hf.parent]
    exact hf.node_eq_ok hf.mem_root
  obtain rfl := Except.ok.inj (hfound.symm.trans hnode)
  obtain ⟨map', hmap', hregion, hleft⟩ :=
    (Tree.struck_of_without? hstrike).exists_pruned_map hf hgroup hmap
  have hprimary : ∀ c ∈ t.region, map'.ownersAt c .primary ≠ [] ∧
      map'.ownersAt c .primary ⊆ map.ownersAt c .primary ∧
      ∀ server ∈ map'.ownersAt c .primary, root.LeadsBelow E.admits server := by
    intro c hc
    obtain ⟨o, o', hvalue, hvalue', hprunes⟩ := hleft c hc
    rw [ReplicaMap.ownersAt_of_valueAt? hvalue, ReplicaMap.ownersAt_of_valueAt? hvalue',
      Owners.inMode_primary, Owners.inMode_primary]
    exact ⟨hprunes.primary, hprunes.subset,
      fun server hserver => hprunes.clear server (Owners.mem_every.2 (Or.inl hserver))⟩
  refine ⟨⟨map', hmap', hregion, fun c hc => ?_, fun e he server hserver => ?_⟩, ?_⟩
  · exact ⟨(hprimary c hc).1, (hprimary c hc).2.1⟩
  · -- The entry has the owners of its first coordinate.
    obtain ⟨hfirst, hvalue⟩ := ReplicaMap.valueAt?_first he
    rw [hregion] at hfirst
    obtain ⟨_, o', -, hvalue', hprunes⟩ := hleft _ hfirst
    obtain rfl := Option.some.inj (hvalue.symm.trans hvalue')
    have hleads := hprunes.clear server hserver
    cases root with
    | server id => cases hgroup
    | group id nodeClass children => exact hleads
  · refine Tree.checkFeasible_eq_ok_iff.2 ⟨map, hmap, fun c hc => ?_⟩
    obtain ⟨hne, hsubset, hclear⟩ := hprimary c hc
    obtain ⟨server, hserver⟩ := List.exists_mem_of_ne_nil _ hne
    refine ⟨server, hsubset hserver, ?_⟩
    simpa [Exclusions.admits, Node.id] using (hclear server hserver).kept_server

/-- The cluster of two racks with a primary copy in each rack, and on both servers of a rack, as far
as there are two. -/
def mirroredRecipe : Recipe :=
  { pairedRecipe with
    policies := .ofList [⟨"cluster", .root, ⟨2, [⟨.rack, "rack", none⟩]⟩, none⟩,
      ⟨"rack", .rack, ⟨2, []⟩, none⟩] }

/-- Without the second rack, and without the second server of the first rack, one server is left. -/
theorem flatten_of_without_secondRack :
    ∃ t t' map map', standard.Outcome mirroredRecipe none (.ok t) ∧ t.flatten t.parent = .ok map ∧
      t.without? (.ofList ["s", "b"]) 5 = .ok t' ∧ t'.flatten t.parent = .ok map' ∧
      map'.ownersAt 0 .primary = ["a"] ∧ "a" ∈ map.ownersAt 0 .primary ∧
      t.checkFeasible t.parent (.ofList ["s", "b"]) = .ok () := by
  obtain ⟨t, houtcome, htest⟩ := exists_outcome
    (show ((standard.build mirroredRecipe none).toOption.any fun t =>
      t.topology = Tree.twoRacks ∧ t.parent = "cluster" ∧ 0 ∈ t.region ∧
        (t.flatten t.parent).toOption.isSome ∧
        (t.without? (.ofList ["s", "b"]) 5).toOption.map (fun t' =>
          (t'.flatten t.parent).toOption.map (·.ownersAt 0 .primary)) = some (some ["a"])) = true
      by decide +kernel)
  obtain ⟨htopology, hparent, hregion, hflat, hwithout⟩ := of_decide_eq_true htest
  obtain ⟨map, hmap⟩ := Option.isSome_iff_exists.1 hflat
  obtain ⟨t', ht', hvalue⟩ := Option.map_eq_some_iff.1 hwithout
  rw [toOption_eq_some] at hmap ht'
  have hnode : t.topology.node t.parent = .ok Tree.twoRacks.root := by
    rw [htopology, hparent]
    exact Topology.node_eq_ok_iff.2 ⟨Node.self_mem_nodes _, rfl⟩
  obtain ⟨⟨map', hmap', -, hprimary, -⟩, hpasses⟩ :=
    flatten_of_without houtcome hnode rfl hmap ht'
  rw [hmap'] at hvalue
  have hleft : map'.ownersAt 0 .primary = ["a"] := Option.some.inj hvalue
  refine ⟨t, t', map, map', houtcome, hmap, ht', hmap', hleft, ?_, hpasses⟩
  have hsubset := (hprimary 0 hregion).2
  rw [hleft] at hsubset
  exact hsubset (List.mem_singleton_self _)

end Builder

end ReplicaRing
