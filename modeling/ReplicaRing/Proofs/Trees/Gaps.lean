import ReplicaRing.Proofs.Trees.Routing

/-!
# Gaps below the parent

The rings of a tree need not hold its region. `Tree.flatten_of_nested` says what becomes of
coordinates that a ring on their way does not hold, in a tree whose rings give regions to children
(`Tree.Nested`). The ring of the parent has to hold the region, or there is no replica map. Further
down, nothing looks whether a ring holds the region that it is sent: what it holds of the region is
superposed with the rest (`superpose_tiles`), and the coordinates in the gap get no owners from the
ring, or those of the coordinates before the gap. A lookup refuses such a coordinate. Where it does
not refuse, the map agrees with it.
-/

namespace ReplicaRing

/-- An owner that a ring gives to a coordinate stands in an entry that holds the coordinate. -/
theorem Ring.exists_entry_of_mem_ownersAt {r : Ring} {c : Nat} {id : NodeId}
    (h : id ∈ r.ownersAt c .all) : ∃ e ∈ r.entries.toList, c ∈ e.region ∧ id ∈ e.owners.every := by
  cases hvalue : Run.valueAt? r.entries.toList c with
  | none => simp [r.ownersAt_eq, hvalue] at h
  | some owners =>
    rw [r.ownersAt_of_valueAt? hvalue] at h
    obtain ⟨e, he, hc, rfl⟩ := Run.mem_of_valueAt?_eq_some hvalue
    exact ⟨e, he, hc, h⟩

namespace Tree

variable {t : Tree} {c depth : Nat} {id : NodeId} {region : Region} {v : Node}

/-- The owners in the ring of a node are children of the node. -/
def Nested (t : Tree) : Prop :=
  ∀ v ∈ t.topology.root.nodes, ∀ ring ∈ t.ring? v.id, ∀ e ∈ ring.entries.toList,
    ∀ id ∈ e.owners.every, ∃ child ∈ v.children, child.id = id

instance (t : Tree) : Decidable t.Nested :=
  inferInstanceAs (Decidable (∀ v ∈ t.topology.root.nodes, ∀ ring ∈ t.ring? v.id,
    ∀ e ∈ ring.entries.toList, ∀ id ∈ e.owners.every, ∃ child ∈ v.children, child.id = id))

/-- No server has a ring. -/
theorem Nested.isServer_eq_false (h : t.Nested) (hv : v ∈ t.topology.root.nodes) {ring : Ring}
    (hring : t.ring? v.id = some ring) : v.isServer = false := by
  have hfirst : ring.region.first ∈ ring.region := ⟨Nat.le_refl _, ring.region.first_le_last⟩
  obtain ⟨e, he, -, -⟩ := ring.exists_entry hfirst
  obtain ⟨owner, howner⟩ := List.exists_mem_of_ne_nil _ (ring.hasPrimaries e he).1
  obtain ⟨child, hchild, -⟩ := h v hv ring hring e he owner (Owners.mem_every.2 (Or.inl howner))
  exact Recipe.isServer_eq_false_of_children (List.ne_nil_of_mem hchild)

/-- Where a region gets through from the parent on, a coordinate of it gets through, within some
region, from every node that it comes to. -/
theorem Nested.exists_entriesUnder (h : t.Nested) (hmet : t.Met c id) {entries : List Entry}
    (hentries : t.entriesUnder depth t.parent t.region = .ok entries) (hc : c ∈ t.region) :
    ∃ depth region entries, c ∈ region ∧ t.entriesUnder (depth + 1) id region = .ok entries := by
  induction hmet with
  | parent =>
    cases depth with
    | zero => cases hentries
    | succ depth => exact ⟨depth, t.region, entries, hc, hentries⟩
  | @owner id owner ring _ hring hmem ih =>
    obtain ⟨depth, region, entries, hc, hentries⟩ := ih
    obtain ⟨node, hnode, hcases⟩ := entriesUnder_eq_ok.1 hentries
    obtain ⟨hv, rfl⟩ := Topology.node_eq_ok_iff.1 hnode
    rcases hcases with ⟨hserver, -⟩ | ⟨-, ring', hring', hthrough⟩
    · rw [h.isServer_eq_false hv hring] at hserver
      cases hserver
    · obtain rfl := Option.some.inj (hring.symm.trans hring')
      obtain ⟨within, -, hpieces⟩ := exists_pieces_of_entriesThrough hthrough
      obtain ⟨e, he, hce, howner⟩ := ring.exists_entry_of_mem_ownersAt hmem
      obtain ⟨piece, hpiece, hfirst, hlast, hwithin⟩ := hpieces e he
        ⟨Nat.le_trans hce.1 hc.2, Nat.le_trans hc.1 hce.2⟩
      obtain ⟨list, hlist, -⟩ := (entriesWithin_eq_ok hpiece).1 hwithin
      have hmem : c ∈ piece := by
        rw [Region.mem_iff] at hc hce ⊢
        omega
      cases depth with
      | zero => cases hlist owner howner
      | succ depth => exact ⟨depth, piece, _, hmem, hlist owner howner⟩

/-- A region gets through if every group that a coordinate of it comes to has a ring. -/
theorem Nested.exists_entriesUnder_of_rings (h : t.Nested) (hv : v ∈ t.topology.root.nodes)
    (hdepth : v.nodes.length ≤ depth) (hregion : t.region.Encloses region)
    (hmet : ∀ c ∈ region, t.Met c v.id)
    (hrings : ∀ c ∈ t.region, ∀ node ∈ t.topology.root.nodes, node.isServer = false →
      t.Met c node.id → (t.ring? node.id).isSome) :
    ∃ entries, t.entriesUnder depth v.id region = .ok entries := by
  induction depth generalizing v region with
  | zero =>
    rw [Node.nodes_eq_cons, List.length_cons] at hdepth
    omega
  | succ depth ih =>
    have hnode : t.topology.node v.id = .ok v := Topology.node_eq_ok_iff.2 ⟨hv, rfl⟩
    cases hserver : v.isServer with
    | true => exact ⟨_, entriesUnder_of_server hnode hserver⟩
    | false =>
      have hfirst : region.first ∈ region := ⟨Nat.le_refl _, region.first_le_last⟩
      obtain ⟨ring, hring⟩ := Option.isSome_iff_exists.1
        (hrings region.first (hregion.mem hfirst) v hv hserver (hmet _ hfirst))
      rw [entriesUnder_of_ring hnode hserver hring]
      refine exists_entriesThrough fun e he piece hentry hpiece owner howner => ?_
      -- The owner has fewer nodes below it, and all coordinates of the piece come to it.
      obtain ⟨child, hchild, rfl⟩ := h v hv ring hring e he owner howner
      have hlt := Node.length_nodes_lt hchild
      exact ih (t.topology.mem_nodes_of_child hv hchild) (by omega) (hregion.trans hpiece)
        fun c hc => (hmet c (hpiece.mem hc)).of_entry hring he (hentry.mem hc) howner

/-- Where there is a replica map, the ring of the parent holds the region of the tree. -/
theorem Nested.encloses_of_flatten (h : t.Nested) {map : ReplicaMap}
    (hflat : t.flatten t.parent = .ok map) {ring : Ring} (hring : t.ring? t.parent = some ring) :
    ring.region.Encloses t.region := by
  have hregion := region_of_flatten hflat
  obtain ⟨entries, hentries, hmap⟩ := bind_eq_ok.1 hflat
  have hmap := ReplicaMap.entries_of_ofEntries?_eq_ok (mapError_eq_ok.1 hmap)
  have hmem : ∀ c ∈ t.region, c ∈ ring.region := by
    intro c hc
    have hsome := (map.tiles.isSome_valueAt? c).2 (by rwa [hregion])
    rw [hmap, (entriesUnder_follows hentries).inOrder.valueAt?_canonical] at hsome
    obtain ⟨owners, hvalue⟩ := Option.isSome_iff_exists.1 hsome
    obtain ⟨x, hx, hcx, -⟩ := Run.mem_of_valueAt?_eq_some hvalue
    obtain ⟨node, hnode, ⟨hserver, -⟩ | ⟨-, ring', hring', hthrough⟩⟩ := entriesUnder_eq_ok.1 hentries
    · obtain ⟨hv, hid⟩ := Topology.node_eq_ok_iff.1 hnode
      rw [h.isServer_eq_false hv (by rw [hid, hring])] at hserver
      cases hserver
    · obtain rfl := Option.some.inj (hring.symm.trans hring')
      obtain ⟨within, rfl, hpieces⟩ := exists_pieces_of_entriesThrough hthrough
      obtain ⟨e, he, hx⟩ := List.mem_flatMap.1 hx
      obtain ⟨he, hoverlaps⟩ := List.mem_filter.1 he
      obtain ⟨piece, hpiece, -, -, hwithin⟩ := hpieces e he (of_decide_eq_true hoverlaps)
      have hce := (encloses_entriesWithin hpiece hwithin hx).1.mem hcx
      have hring : ring.region.Encloses e.region := ring.tiles.bounds he
      exact hring.mem hce
  exact ⟨(hmem t.region.first ⟨Nat.le_refl _, t.region.first_le_last⟩).1,
    (hmem t.region.last ⟨t.region.first_le_last, Nat.le_refl _⟩).2⟩

/-- The parent is a server, or its ring holds the region of the tree. -/
def HoldsRegion (t : Tree) : Prop :=
  ∃ root, t.topology.node t.parent = .ok root ∧ (root.isServer = true ∨
    ∃ ring, t.ring? t.parent = some ring ∧ ring.region.Encloses t.region)

theorem Nested.of_flatten (h : t.Nested) {map : ReplicaMap} (hmap : t.flatten t.parent = .ok map) :
    t.HoldsRegion ∧ ∀ c ∈ t.region, ∀ node ∈ t.topology.root.nodes, node.isServer = false →
      t.Met c node.id → (t.ring? node.id).isSome := by
  obtain ⟨entries, hentries, -⟩ := bind_eq_ok.1 hmap
  have hfound : ∀ c ∈ t.region, ∀ id, t.Met c id → ∃ node, t.topology.node id = .ok node ∧
      (node.isServer = true ∨ node.isServer = false ∧ ∃ ring, t.ring? id = some ring) := by
    intro c hc id hmet
    obtain ⟨_, _, _, -, hunder⟩ := h.exists_entriesUnder hmet hentries hc
    obtain ⟨node, hnode, ⟨hserver, -⟩ | ⟨hgroup, ring, hring, -⟩⟩ := entriesUnder_eq_ok.1 hunder
    · exact ⟨node, hnode, Or.inl hserver⟩
    · exact ⟨node, hnode, Or.inr ⟨hgroup, ring, hring⟩⟩
  constructor
  · obtain ⟨root, hroot, hserver | ⟨-, ring, hring⟩⟩ :=
      hfound t.region.first ⟨Nat.le_refl _, t.region.first_le_last⟩ t.parent .parent
    · exact ⟨root, hroot, Or.inl hserver⟩
    · exact ⟨root, hroot, Or.inr ⟨ring, hring, h.encloses_of_flatten hmap hring⟩⟩
  · intro c hc node hv hgroup hmet
    obtain ⟨node', hnode', hserver | ⟨-, ring, hring⟩⟩ := hfound c hc node.id hmet
    · obtain rfl := Except.ok.inj ((Topology.node_eq_ok_iff.2 ⟨hv, rfl⟩).symm.trans hnode')
      rw [hgroup] at hserver
      cases hserver
    · rw [hring]
      rfl

theorem Nested.exists_flatten (h : t.Nested) (hparent : t.HoldsRegion)
    (hrings : ∀ c ∈ t.region, ∀ node ∈ t.topology.root.nodes, node.isServer = false →
      t.Met c node.id → (t.ring? node.id).isSome) : ∃ map, t.flatten t.parent = .ok map := by
  obtain ⟨root, hroot, hparent⟩ := hparent
  obtain ⟨hv, hid⟩ := Topology.node_eq_ok_iff.1 hroot
  have hdepth : root.nodes.length ≤ t.depthLimit := by
    have hle := (Node.nodes_sublist hv).length_le
    rw [depthLimit, Topology.size_eq]
    omega
  obtain ⟨entries, hentries⟩ := h.exists_entriesUnder_of_rings hv hdepth
    ⟨Nat.le_refl _, Nat.le_refl _⟩ (fun c _ => hid ▸ .parent) hrings
  rw [hid] at hentries
  have htiles : Run.Tiles t.region entries := by
    refine tiles_entriesUnder (fun ring hring => ?_) hentries
    rcases hparent with hserver | ⟨ring', hring', hencloses⟩
    · rw [h.isServer_eq_false hv (by rw [hid, hring])] at hserver
      cases hserver
    · obtain rfl := Option.some.inj (hring.symm.trans hring')
      exact hencloses
  obtain ⟨map, hmap⟩ := ReplicaMap.exists_ofEntries? htiles
  exact ⟨map, bind_eq_ok.2 ⟨entries, hentries, mapError_eq_ok.2 hmap⟩⟩

/-- A tree that gives regions to children only is flattened exactly if its parent is a server or has a
ring that holds the region of the tree, and every group that a coordinate comes to has a ring. The
map agrees with each lookup that succeeds. If a lookup fails, there is no map, unless the coordinate
comes to a ring below the parent that does not hold it. -/
theorem flatten_of_nested (h : t.Nested) :
    ((∃ map, t.flatten t.parent = .ok map) ↔
      t.HoldsRegion ∧ ∀ c ∈ t.region, ∀ node ∈ t.topology.root.nodes, node.isServer = false →
        t.Met c node.id → (t.ring? node.id).isSome) ∧
    (∀ map, t.flatten t.parent = .ok map → ∀ c ∈ t.region, ∀ mode owners,
      t.ownersAt c mode = .ok owners → map.ownersAt c mode = owners) ∧
    ∀ c ∈ t.region, (∃ e, t.ownersAt c .all = .error e) →
      (∀ id ring, t.Met c id → id ≠ t.parent → t.ring? id = some ring → c ∈ ring.region) →
        ∃ e, t.flatten t.parent = .error e := by
  refine ⟨⟨fun ⟨map, hmap⟩ => h.of_flatten hmap, fun ⟨hparent, hrings⟩ =>
    h.exists_flatten hparent hrings⟩, ?_, ?_⟩
  · intro map hmap c hc mode owners howners
    obtain ⟨o, ho, rfl⟩ := map_eq_ok.1 howners
    rw [ReplicaMap.ownersAt_of_valueAt? (valueAt?_of_flatten hmap hc ho)]
  · rintro c hc ⟨e, he⟩ hholds
    cases hflat : t.flatten t.parent with
    | error e => exact ⟨e, rfl⟩
    | ok map =>
      obtain ⟨entries, hentries, -⟩ := bind_eq_ok.1 hflat
      obtain ⟨o, ho⟩ := exists_ownersUnder hentries hc .parent fun id ring hmet hring => by
        by_cases hid : id = t.parent
        · subst hid
          exact (h.encloses_of_flatten hflat hring).mem hc
        · exact hholds id ring hmet hid hring
      rw [ownersAt, ho] at he
      cases he

/-- The coordinates from 2 to 3. -/
def middle : Region :=
  (Region.ofBounds? 2 3).get (by decide)

/-- A cluster that gives all of its region to the first rack, which has a ring for two coordinates in
the middle of it. -/
def gapTree : Tree where
  topology := twoRacks
  parent := "cluster"
  rings := indexRings
    [⟨"cluster", "standard", twoRacksTree.region, 1, 0, 1e-6,
      #[⟨twoRacksTree.region, ["r"], []⟩], by decide, by decide, by decide⟩,
    ⟨"r", "standard", middle, 1, 0, 1e-6, #[⟨middle, ["a"], []⟩],
      by decide, by decide, by decide⟩]
  version := 1
  created := 0
  region := twoRacksTree.region

/-- At a coordinate that the ring of the rack holds, the lookup and the map agree. -/
theorem flatten_of_nested_gapTree :
    gapTree.Nested ∧ gapTree.HoldsRegion ∧ ∃ map, gapTree.flatten gapTree.parent = .ok map ∧
      gapTree.ownersAt 2 .all = .ok ["a"] ∧ map.ownersAt 2 .all = ["a"] := by
  have hnested : gapTree.Nested := by decide +kernel
  have hlookup : gapTree.ownersAt 2 .all = .ok ["a"] :=
    toOption_eq_some.1 (by decide +kernel)
  obtain ⟨hiff, hagree, -⟩ := flatten_of_nested hnested
  have hsome : (gapTree.flatten gapTree.parent).toOption.isSome = true := by decide +kernel
  obtain ⟨map, hmap⟩ := Option.isSome_iff_exists.1 hsome
  have hmap := toOption_eq_some.1 hmap
  exact ⟨hnested, (hiff.1 ⟨map, hmap⟩).1, map, hmap, hlookup,
    hagree map hmap 2 ⟨by decide, by decide⟩ .all _ hlookup⟩

/-- A lookup refuses the coordinates on both sides of the middle. The map lists no owners for those
before it, and for those after it the owner of the coordinates in it. -/
theorem exists_flatten_over_gap :
    ∃ t : Tree, t.Nested ∧ t.region.first = 0 ∧ t.region.last = 7 ∧
      t.ownersAt 0 .all = .error (.invalidRing (.notCovered "r" 0)) ∧
      t.ownersAt 5 .all = .error (.invalidRing (.notCovered "r" 5)) ∧
      ∃ map, t.flatten t.parent = .ok map ∧ map.ownersAt 0 .all = [] ∧
        map.ownersAt 5 .all = ["a"] := by
  have htest : ((gapTree.flatten gapTree.parent).toOption.any fun map =>
      map.ownersAt 0 .all = [] ∧ map.ownersAt 5 .all = ["a"]) = true := by decide +kernel
  obtain ⟨map, hmap, htest⟩ := (Option.any_eq_true _ _).1 htest
  exact ⟨gapTree, by decide +kernel, rfl, rfl, by decide +kernel, by decide +kernel, map,
    toOption_eq_some.1 hmap, of_decide_eq_true htest⟩

end Tree

end ReplicaRing
