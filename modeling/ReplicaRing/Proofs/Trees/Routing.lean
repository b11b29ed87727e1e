import ReplicaRing.Proofs.Trees.Covering
import ReplicaRing.Proofs.Trees.Lookup

/-!
# Built trees route every coordinate

The rings of a tree that was built are those of covered nodes (`Recipe.Furnishes`), so a coordinate
is passed down from a node to eligible children only, and ends at servers that take part
(`Recipe.Furnishes.sound`). It gets there unless a group without a ring is met on the way
(`Tree.Met`, `Recipe.Furnishes.exists_ownersUnder_of_rings`). Different children of a node have
different servers below them, so no primary copy is lost when they are united
(`Recipe.Furnishes.length_primary`). `Builder.flatten_of_outcome` puts this together.
-/

namespace ReplicaRing

/-- Entries that tile a region make a replica map. -/
theorem ReplicaMap.exists_ofEntries? {region : Region} {entries : List Entry}
    (h : Run.Tiles region entries) : ∃ m, ReplicaMap.ofEntries? region entries = .ok m := by
  have hnone : Run.coverageDefect? region (Run.canonical entries) = none :=
    Run.coverageDefect?_eq_none.2 (Run.TilesFrom.canonical h)
  unfold ReplicaMap.ofEntries?
  split
  · rename_i hdefect
    rw [hnone] at hdefect
    cases hdefect
  · exact ⟨_, rfl⟩

namespace Tree

variable {t : Tree} {c depth : Nat} {id : NodeId} {o : Owners}

/-- More steps down do not change what comes up. -/
theorem ownersUnder_succ (h : t.ownersUnder c depth id = .ok o) :
    t.ownersUnder c (depth + 1) id = .ok o := by
  induction depth generalizing id o with
  | zero => cases h
  | succ depth ih =>
    rw [ownersUnder_eq_ok] at h ⊢
    obtain ⟨node, hnode, hserver | ⟨hserver, ring, owners, under, hring, hvalue, hunder, rfl⟩⟩ := h
    · exact ⟨node, hnode, Or.inl hserver⟩
    · exact ⟨node, hnode, Or.inr ⟨hserver, ring, owners, under, hring, hvalue,
        fun child hchild => ih (hunder child hchild), rfl⟩⟩

/-- A region gets through a ring if every owner of an entry resolves the part of the region that
lies in the entry. -/
theorem exists_entriesThrough {region : Region} {ring : Ring}
    (h : ∀ e ∈ ring.entries.toList, ∀ piece : Region, e.region.Encloses piece →
      region.Encloses piece → ∀ owner ∈ e.owners.every,
        ∃ entries, t.entriesUnder depth owner piece = .ok entries) :
    ∃ entries, t.entriesThrough depth region ring = .ok entries := by
  have hwithin : ∀ e ∈ ring.entries.toList, e.region.Overlaps region →
      ∃ entries, t.entriesWithin depth region e = .ok entries := by
    intro e he hoverlaps
    obtain ⟨piece, hpiece, hfirst, hlast⟩ := Region.inter?_of_overlaps hoverlaps
    have hunder := h e he piece ⟨by omega, by omega⟩ ⟨by omega, by omega⟩
    choose! under hunder using hunder
    exact ⟨_, (entriesWithin_eq_ok hpiece).2 ⟨under, hunder, rfl⟩⟩
  choose! within hwithin using hwithin
  exact ⟨_, entriesThrough_eq_ok.2 ⟨within, hwithin, rfl⟩⟩

/-- A region gets through if each of its coordinates does. -/
theorem exists_entriesUnder {region : Region}
    (h : ∀ c ∈ region, ∃ o, t.ownersUnder c depth id = .ok o) :
    ∃ entries, t.entriesUnder depth id region = .ok entries := by
  have hfirst : region.first ∈ region := ⟨Nat.le_refl _, region.first_le_last⟩
  induction depth generalizing id region with
  | zero =>
    obtain ⟨o, ho⟩ := h region.first hfirst
    cases ho
  | succ depth ih =>
    obtain ⟨o, ho⟩ := h region.first hfirst
    obtain ⟨node, hnode, hcases⟩ := ownersUnder_eq_ok.1 ho
    rcases hcases with ⟨hserver, -⟩ | ⟨hserver, ring, -, -, hring, -⟩
    · exact ⟨_, entriesUnder_of_server hnode hserver⟩
    · rw [entriesUnder_of_ring hnode hserver hring]
      refine exists_entriesThrough fun e he piece hentry hregion owner howner => ?_
      refine ih (fun c hc => ?_) ⟨Nat.le_refl _, piece.first_le_last⟩
      -- A coordinate of the piece goes on to the owners of the entry.
      obtain ⟨o, ho⟩ := h c (hregion.mem hc)
      obtain ⟨node', hnode', hcases⟩ := ownersUnder_eq_ok.1 ho
      obtain rfl := Except.ok.inj (hnode.symm.trans hnode')
      rcases hcases with ⟨hserver', -⟩ | ⟨-, ring', owners, under, hring', hvalue, hunder, -⟩
      · rw [hserver] at hserver'
        cases hserver'
      · obtain rfl := Option.some.inj (hring.symm.trans hring')
        rw [ring.tiles.valueAt?_of_mem he (hentry.mem hc)] at hvalue
        obtain rfl := Option.some.inj hvalue
        exact ⟨under owner, hunder owner howner⟩

/-- A tree is flattened if each coordinate of its region gets through. -/
theorem exists_flatten (hrings : ∀ id ring, t.ring? id = some ring →
      ring.region.Encloses t.region)
    (h : ∀ c ∈ t.region, ∃ o, t.ownersUnder c t.depthLimit t.parent = .ok o) :
    ∃ map, t.flatten t.parent = .ok map := by
  obtain ⟨entries, hentries⟩ := exists_entriesUnder h
  have htiles := tiles_entriesUnder (hrings t.parent) hentries
  obtain ⟨map, hmap⟩ := ReplicaMap.exists_ofEntries? htiles
  exact ⟨map, bind_eq_ok.2 ⟨entries, hentries, mapError_eq_ok.2 hmap⟩⟩

end Tree

namespace Recipe

/-- What comes up for a coordinate from an eligible node is some primary servers and no server
twice, all of them servers that take part and are reached from the node. -/
structure SoundUnder (r : Recipe) (v : Node) (o : Owners) : Prop where
  primary : o.primary ≠ []
  nodup : o.every.Nodup
  reached : ∀ server ∈ o.every, r.Reaches v server ∧ r.selects server = true

theorem SoundUnder.server {r : Recipe} {id : NodeId} (h : r.Eligible (.server id)) :
    r.SoundUnder (.server id) ⟨[id], []⟩ := by
  obtain ⟨_, ⟨hopen⟩, hselects⟩ := h
  refine ⟨List.cons_ne_nil _ _, List.nodup_singleton id, fun server hmem => ?_⟩
  obtain rfl := List.mem_singleton.1 hmem
  exact ⟨.server hopen, hselects⟩

/-- What comes up through some children of a node is sound, if it is so below each of them. -/
theorem SoundUnder.through {r : Recipe} {v : Node} {o : Owners} {under : NodeId → Owners}
    (hopen : r.isOpen v = true) (hprimary : o.primary ≠ []) (h : ∀ id ∈ o.every,
      ∃ child ∈ v.children, child.id = id ∧ r.SoundUnder child (under id)) :
    r.SoundUnder v (o.through under) := by
  refine ⟨?_, Owners.nodup_every_union _, fun server hserver => ?_⟩
  · obtain ⟨id, hid⟩ := List.exists_mem_of_ne_nil _ hprimary
    obtain ⟨child, -, -, hsound⟩ := h id (Owners.mem_every.2 (Or.inl hid))
    obtain ⟨server, hserver⟩ := List.exists_mem_of_ne_nil _ hsound.primary
    exact List.ne_nil_of_mem (Owners.mem_primary_through.2 ⟨id, hid, hserver⟩)
  · obtain ⟨id, hid, hmem⟩ := Owners.exists_of_mem_every_through hserver
    obtain ⟨child, hchild, -, hsound⟩ := h id hid
    obtain ⟨hreaches, hselects⟩ := hsound.reached server hmem
    exact ⟨hreaches.of_child hopen hchild, hselects⟩

namespace Furnishes

variable {r : Recipe} {root v : Node} {t : Tree} {ring : Ring} {c depth : Nat} {o owners : Owners}

/-- What a ring of the tree is to the node that it is found at. -/
theorem ring_spec (h : r.Furnishes root t) (hv : v ∈ r.topology.root.nodes)
    (hring : t.ring? v.id = some ring) : v.isServer = false ∧ r.Eligible v ∧
      ring.region = r.region ∧ ∀ e ∈ ring.entries.toList, ∀ id ∈ e.owners.every,
        ∃ child ∈ v.children, child.id = id ∧ r.Eligible child := by
  obtain ⟨w, name, hw, hid, hfor⟩ := h.rings v.id ring hring
  obtain rfl := r.topology.eq_of_id_eq (Node.mem_nodes_trans hw.mem_nodes h.mem_root) hv hid
  exact ⟨hw.isServer_eq_false, hw.eligible, hfor.region, hfor.owners⟩

/-- The owners of a coordinate are eligible children. -/
theorem exists_child (h : r.Furnishes root t) (hv : v ∈ r.topology.root.nodes)
    (hring : t.ring? v.id = some ring) (hvalue : Run.valueAt? ring.entries.toList c = some owners)
    {id : NodeId} (hid : id ∈ owners.every) :
    ∃ child ∈ v.children, child.id = id ∧ r.Eligible child := by
  obtain ⟨e, he, -, rfl⟩ := Run.mem_of_valueAt?_eq_some hvalue
  exact (h.ring_spec hv hring).2.2.2 e he id hid

theorem encloses (h : r.Furnishes root t) (id : NodeId) (ring : Ring)
    (hring : t.ring? id = some ring) : ring.region.Encloses t.region := by
  obtain ⟨v, name, -, -, hfor⟩ := h.rings id ring hring
  rw [hfor.region, h.region]
  exact ⟨Nat.le_refl _, Nat.le_refl _⟩

theorem node_eq_ok (h : r.Furnishes root t) (hv : v ∈ r.topology.root.nodes) :
    t.topology.node v.id = .ok v := by
  rw [h.topology]
  exact Topology.node_eq_ok_iff.2 ⟨hv, rfl⟩

/-- What comes up from a node that has a ring comes up through the ring. -/
theorem exists_through (h : r.Furnishes root t) (hv : v ∈ r.topology.root.nodes)
    (hring : t.ring? v.id = some ring) (ho : t.ownersUnder c (depth + 1) v.id = .ok o) :
    ∃ owners under, Run.valueAt? ring.entries.toList c = some owners ∧
      (∀ child ∈ owners.every, t.ownersUnder c depth child = .ok (under child)) ∧
      o = owners.through under := by
  obtain ⟨node, hnode, hcases⟩ := Tree.ownersUnder_eq_ok.1 ho
  obtain rfl := Except.ok.inj ((h.node_eq_ok hv).symm.trans hnode)
  rcases hcases with ⟨hserver, -⟩ | ⟨-, ring', owners, under, hring', hvalue, hunder, ho⟩
  · rw [(h.ring_spec hv hring).1] at hserver
    cases hserver
  · obtain rfl := Option.some.inj (hring.symm.trans hring')
    exact ⟨owners, under, hvalue, hunder, ho⟩

theorem sound (h : r.Furnishes root t) (hv : v ∈ r.topology.root.nodes) (heligible : r.Eligible v)
    (ho : t.ownersUnder c depth v.id = .ok o) : r.SoundUnder v o := by
  induction depth generalizing v o with
  | zero => cases ho
  | succ depth ih =>
    obtain ⟨node, hnode, hcases⟩ := Tree.ownersUnder_eq_ok.1 ho
    obtain rfl := Except.ok.inj ((h.node_eq_ok hv).symm.trans hnode)
    rcases hcases with ⟨hserver, rfl⟩ | ⟨-, ring, owners, under, hring, hvalue, hunder, rfl⟩
    · cases v with
      | server id => exact .server heligible
      | group id nodeClass children => cases hserver
    · refine .through heligible.isOpen ?_ fun id hid => ?_
      · obtain ⟨e, he, -, rfl⟩ := Run.mem_of_valueAt?_eq_some hvalue
        exact (ring.hasPrimaries e he).1
      · obtain ⟨child, hchild, rfl, hchildEligible⟩ := h.exists_child hv hring hvalue hid
        exact ⟨child, hchild, rfl,
          ih (r.topology.mem_nodes_of_child hv hchild) hchildEligible (hunder _ hid)⟩

/-- A node has as many primary servers as its primary children together. -/
theorem length_primary (h : r.Furnishes root t) (hv : v ∈ r.topology.root.nodes)
    (hring : t.ring? v.id = some ring) (ho : t.ownersUnder c (depth + 1) v.id = .ok o) :
    ∃ under : NodeId → Owners,
      (∀ child ∈ ring.ownersAt c .primary, t.ownersUnder c (depth + 1) child = .ok (under child)) ∧
        o.primary.length =
          ((ring.ownersAt c .primary).map fun child => (under child).primary.length).sum := by
  obtain ⟨owners, under, hvalue, hunder, rfl⟩ := h.exists_through hv hring ho
  rw [ring.ownersAt_of_valueAt? hvalue, Owners.inMode_primary]
  have hevery : ∀ {id}, id ∈ owners.primary → id ∈ owners.every :=
    fun hid => Owners.mem_every.2 (Or.inl hid)
  have hchild : ∀ id ∈ owners.primary,
      ∃ child ∈ v.children, child.id = id ∧ r.SoundUnder child (under id) := by
    intro id hid
    obtain ⟨child, hchild, rfl, heligible⟩ := h.exists_child hv hring hvalue (hevery hid)
    exact ⟨child, hchild, rfl,
      h.sound (r.topology.mem_nodes_of_child hv hchild) heligible (hunder _ (hevery hid))⟩
  refine ⟨under, fun child hchild => Tree.ownersUnder_succ (hunder child (hevery hchild)),
    Owners.length_primary_through ?_ ?_ ?_⟩
  · obtain ⟨e, he, -, rfl⟩ := Run.mem_of_valueAt?_eq_some hvalue
    exact (ring.hasPrimaries e he).2
  · intro id hid
    obtain ⟨child, -, -, hsound⟩ := hchild id hid
    exact hsound.nodup.sublist (List.sublist_append_left ..)
  · -- A server below two children would be below each of them in the topology.
    intro a ha b hb server hsa hsb
    obtain ⟨x, hx, rfl, hsoundx⟩ := hchild a ha
    obtain ⟨y, hy, rfl, hsoundy⟩ := hchild b hb
    have hreachx := (hsoundx.reached server (Owners.mem_every.2 (Or.inl hsa))).1
    have hreachy := (hsoundy.reached server (Owners.mem_every.2 (Or.inl hsb))).1
    rw [r.topology.eq_of_below hv hx hy hreachx.mem_nodes hreachy.mem_nodes]

/-! ### When a coordinate gets through -/

/-- If a coordinate is resolved from the parent on, so it is from every node that it comes to. -/
theorem exists_ownersUnder (h : r.Furnishes root t) {id : NodeId} (hmet : t.Met c id)
    (hparent : ∃ o, t.ownersUnder c depth t.parent = .ok o) :
    ∃ depth o, t.ownersUnder c (depth + 1) id = .ok o := by
  induction hmet with
  | parent =>
    obtain ⟨o, ho⟩ := hparent
    exact ⟨depth, o, Tree.ownersUnder_succ ho⟩
  | @owner id owner ring _ hring hmem ih =>
    obtain ⟨depth, o, ho⟩ := ih
    obtain ⟨v, name, hv, rfl, -⟩ := h.rings id ring hring
    obtain ⟨owners, under, hvalue, hunder, -⟩ :=
      h.exists_through (Node.mem_nodes_trans hv.mem_nodes h.mem_root) hring ho
    rw [ring.ownersAt_of_valueAt? hvalue] at hmem
    exact ⟨depth, under owner, Tree.ownersUnder_succ (hunder owner hmem)⟩

/-- A coordinate is passed down to servers if every group that it comes to has a ring. -/
theorem exists_ownersUnder_of_rings (h : r.Furnishes root t) (hv : v ∈ r.topology.root.nodes)
    (hdepth : v.nodes.length ≤ depth) (hc : c ∈ t.region) (hmet : t.Met c v.id)
    (hrings : ∀ node ∈ r.topology.root.nodes, node.isServer = false →
      t.Met c node.id → (t.ring? node.id).isSome) :
    ∃ o, t.ownersUnder c depth v.id = .ok o := by
  induction depth generalizing v with
  | zero =>
    rw [Node.nodes_eq_cons, List.length_cons] at hdepth
    omega
  | succ depth ih =>
    cases hserver : v.isServer with
    | true => exact ⟨_, Tree.ownersUnder_of_server (h.node_eq_ok hv) hserver⟩
    | false =>
      obtain ⟨ring, hring⟩ := Option.isSome_iff_exists.1 (hrings v hv hserver hmet)
      obtain ⟨e, he, hce, hvalue⟩ := ring.exists_entry ((h.encloses v.id ring hring).mem hc)
      refine Tree.exists_ownersUnder_succ (h.node_eq_ok hv) hserver hring hvalue fun id hid => ?_
      -- The owner has fewer nodes below it, and the coordinate comes to it.
      obtain ⟨child, hchild, rfl, -⟩ := (h.ring_spec hv hring).2.2.2 e he id hid
      have hlt := Node.length_nodes_lt hchild
      exact ih (r.topology.mem_nodes_of_child hv hchild) (by omega) (hmet.of_entry hring he hce hid)

/-! ### The replica map -/

/-- The nodes of the parent's subtree fit in the number of steps down. -/
theorem exists_flatten (h : r.Furnishes root t)
    (hrings : ∀ c ∈ t.region, ∀ node ∈ r.topology.root.nodes, node.isServer = false →
      t.Met c node.id → (t.ring? node.id).isSome) : ∃ map, t.flatten t.parent = .ok map := by
  have hdepth : root.nodes.length ≤ t.depthLimit := by
    have hle := (Node.nodes_sublist h.mem_root).length_le
    unfold Tree.depthLimit
    rw [h.topology, Topology.size_eq]
    omega
  refine Tree.exists_flatten h.encloses fun c hc => ?_
  rw [h.parent]
  refine h.exists_ownersUnder_of_rings h.mem_root hdepth hc ?_ (hrings c hc)
  rw [← h.parent]
  exact .parent

end Furnishes

end Recipe

namespace Builder

variable {b : Builder} {r : Recipe} {prior : Option Tree} {t : Tree}

/-- A tree that was built is flattened exactly if every group that a coordinate comes to has a ring.
Then the map covers the region of the tree without gaps, every coordinate has a primary server, no
server is listed twice, neither in one role nor in both, and only servers are listed that take part
and are reached from the parent through nodes that are not excluded. At each coordinate, the primary
children of the parent have as many primary servers together as the map lists. -/
theorem flatten_of_outcome (h : b.Outcome r prior (.ok t)) {ring : Ring}
    (hring : t.ring? t.parent = some ring) :
    ∃ root, r.topology.node r.parent = .ok root ∧
      ((∃ map, t.flatten t.parent = .ok map) ↔
        ∀ c ∈ t.region, ∀ node ∈ r.topology.root.nodes, node.isServer = false →
          t.Met c node.id → (t.ring? node.id).isSome) ∧
      ∀ map, t.flatten t.parent = .ok map →
        map.region = t.region ∧ Run.Tiles t.region map.entries.toList ∧
        (∀ e ∈ map.entries.toList, e.owners.every.Nodup ∧
          ∀ server ∈ e.owners.every, r.Reaches root server ∧ r.selects server = true) ∧
        ∀ c ∈ t.region, map.ownersAt c .primary ≠ [] ∧ ∃ under : NodeId → Owners,
          (∀ child ∈ ring.ownersAt c .primary,
            t.ownersUnder c t.depthLimit child = .ok (under child)) ∧
          (map.ownersAt c .primary).length =
            ((ring.ownersAt c .primary).map fun child => (under child).primary.length).sum := by
  obtain ⟨root, hroot, -⟩ := h.exists_root
  have hf := h.furnishes hroot
  refine ⟨root, hroot, ⟨?_, hf.exists_flatten⟩, ?_⟩
  · rintro ⟨map, hmap⟩ c hc node hnode hgroup hmet
    obtain ⟨owners, howners, -⟩ := Tree.exists_owners_of_flatten hf.encloses hmap hc
    obtain ⟨depth, o, ho⟩ := hf.exists_ownersUnder hmet ⟨owners, howners⟩
    obtain ⟨node', hnode', ⟨hserver, -⟩ | ⟨-, ring, -, -, hring, -⟩⟩ := Tree.ownersUnder_eq_ok.1 ho
    · obtain rfl := Except.ok.inj ((hf.node_eq_ok hnode).symm.trans hnode')
      rw [hgroup] at hserver
      cases hserver
    · rw [hring]
      rfl
  · intro map hmap
    have hregion := Tree.region_of_flatten hmap
    have htiles : Run.Tiles t.region map.entries.toList := hregion ▸ map.tiles
    have heligible : r.Eligible root := (hf.ring_spec hf.mem_root (hf.parent ▸ hring)).2.1
    have howners : ∀ {c}, c ∈ t.region → ∃ o,
        t.ownersUnder c t.depthLimit root.id = .ok o ∧
          Run.valueAt? map.entries.toList c = some o ∧ r.SoundUnder root o := by
      intro c hc
      obtain ⟨o, ho, hvalue⟩ := Tree.exists_owners_of_flatten hf.encloses hmap hc
      rw [hf.parent] at ho
      exact ⟨o, ho, hvalue, hf.sound hf.mem_root heligible ho⟩
    refine ⟨hregion, htiles, fun e he => ?_, fun c hc => ?_⟩
    · have hfirst : e.region.first ∈ e.region := ⟨Nat.le_refl _, e.region.first_le_last⟩
      have hbounds := htiles.bounds he
      have hle := e.region.first_le_last
      have hmem : e.region.first ∈ t.region := by
        rw [Region.mem_iff]
        omega
      obtain ⟨o, -, hvalue, hsound⟩ := howners hmem
      rw [htiles.valueAt?_of_mem he hfirst] at hvalue
      obtain rfl := Option.some.inj hvalue
      exact ⟨hsound.nodup, hsound.reached⟩
    · obtain ⟨o, ho, hvalue, hsound⟩ := howners hc
      rw [ReplicaMap.ownersAt_of_valueAt? hvalue, Owners.inMode_primary]
      exact ⟨hsound.primary, hf.length_primary hf.mem_root (hf.parent ▸ hring) ho⟩

theorem flatten_of_outcome_twoRacks :
    ∃ t map, standard.Outcome (twoRacksRecipe "cluster" "cluster" []) none (.ok t) ∧
      t.flatten t.parent = .ok map ∧ map.ownersAt 4 .all = ["c", "b"] ∧
      Run.Tiles t.region map.entries.toList ∧ ∀ e ∈ map.entries.toList, e.owners.every.Nodup := by
  obtain ⟨t, houtcome, htest⟩ := exists_outcome
    (show ((standard.build (twoRacksRecipe "cluster" "cluster" []) none).toOption.any fun t =>
      (t.ring? t.parent).isSome ∧
        (t.flatten t.parent).toOption.map (·.ownersAt 4 .all) = some ["c", "b"]) = true
      by decide +kernel)
  obtain ⟨hsome, hvalue⟩ := of_decide_eq_true htest
  obtain ⟨ring, hring⟩ := Option.isSome_iff_exists.1 hsome
  cases hmap : t.flatten t.parent with
  | error _ =>
    rw [hmap] at hvalue
    cases hvalue
  | ok map =>
    rw [hmap] at hvalue
    obtain ⟨_, -, -, hflat⟩ := flatten_of_outcome houtcome hring
    obtain ⟨-, htiles, hentries, -⟩ := hflat map hmap
    exact ⟨t, map, houtcome, hmap, Option.some.inj hvalue, htiles, fun e he => (hentries e he).1⟩

end Builder

end ReplicaRing
