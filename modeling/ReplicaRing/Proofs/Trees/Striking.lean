import ReplicaRing.Proofs.Runs.Canonical
import ReplicaRing.Proofs.Trees.Routing

/-!
# Striking servers from a tree

Excluded servers are struck from the rings of a tree, one ring at a time (`Tree.Struck`). What comes
up for a coordinate from the struck tree is what came up before, without the excluded servers
(`Tree.Struck.ownersUnder`): nothing is left of an excluded owner further up, as it is a server, and
leaving servers out commutes with uniting what comes up (`Owners.filter_through`). So the replica map
of the struck tree is that of the tree with the servers struck from it, for both are the canonical
form of one function (`Builder.flatten_without`).

The rings are merged anew after the servers were struck, so the entries of a struck ring are not
those of the ring; only the functions that they stand for are compared.
-/

namespace ReplicaRing

/-- An entry without its excluded owners. -/
def Exclusions.strike (E : Exclusions) (e : Entry) : Entry :=
  ⟨e.region, E.filterOwners e.owners⟩

theorem Exclusions.inMode_filterOwners (E : Exclusions) (o : Owners) (mode : QueryMode) :
    (E.filterOwners o).inMode mode = E.filter (o.inMode mode) := by
  unfold Owners.inMode Exclusions.filterOwners Exclusions.filter Owners.filter
  rw [List.filter_append]
  cases mode <;> rfl

theorem Exclusions.filter_eq_nil_iff {E : Exclusions} {ids : List NodeId} :
    E.filter ids = [] ↔ ∀ id ∈ ids, E.excludes id = true := by
  unfold Exclusions.filter
  simp [List.filter_eq_nil_iff]

theorem valueAt?_map_strike (E : Exclusions) (entries : List Entry) (c : Nat) :
    Run.valueAt? (entries.map E.strike) c = (Run.valueAt? entries c).map E.filterOwners :=
  Run.valueAt?_map (f := E.strike) (fun _ => rfl) (fun _ => rfl) c

theorem Region.encloses_of_eq {a b : Region} (h : a = b) : a.Encloses b :=
  h ▸ ⟨Nat.le_refl _, Nat.le_refl _⟩

theorem ReplicaMap.valueAt?_eq_none {m : ReplicaMap} {c : Nat} (hc : c ∉ m.region) :
    Run.valueAt? m.entries.toList c = none := by
  rw [← Option.not_isSome_iff_eq_none, m.tiles.isSome_valueAt?]
  exact hc

/-! ### Striking from a ring -/

namespace Ring

variable {E : Exclusions} {r r' : Ring}

theorem strikeFrom_eq_ok {node : NodeId} {entries struck : List Entry} :
    strikeFrom node E entries = .ok struck ↔
      (∀ e ∈ entries, E.filter e.owners.primary ≠ []) ∧ struck = entries.map E.strike := by
  induction entries generalizing struck with
  | nil =>
    rw [strikeFrom, Except.ok.injEq]
    exact ⟨fun h => ⟨fun e he => absurd he List.not_mem_nil, h.symm⟩, fun h => h.2.symm⟩
  | cons e rest ih =>
    rw [strikeFrom, List.forall_mem_cons]
    split
    · rename_i hnone
      simp [hnone]
    · rename_i hsome
      rw [map_eq_ok]
      constructor
      · rintro ⟨tail, htail, rfl⟩
        obtain ⟨hrest, rfl⟩ := ih.1 htail
        exact ⟨⟨hsome, hrest⟩, rfl⟩
      · rintro ⟨⟨-, hrest⟩, rfl⟩
        exact ⟨_, ih.2 ⟨hrest, rfl⟩, rfl⟩

/-- If every entry keeps a primary owner, what is left of the entries makes a ring. -/
theorem exists_without? (h : ∀ e ∈ r.entries.toList, E.filter e.owners.primary ≠ []) :
    ∃ r', r.without? E = .ok r' ∧ r'.region = r.region ∧
      ∀ c, Run.valueAt? r'.entries.toList c =
        (Run.valueAt? r.entries.toList c).map E.filterOwners := by
  have htiles : Run.Tiles r.region (r.entries.toList.map E.strike) := r.tiles.map fun _ => rfl
  have hprimaries : ∀ c ∈ r.region, ∀ owners,
      Run.valueAt? (r.entries.toList.map E.strike) c = some owners →
        owners.primary ≠ [] ∧ owners.primary.Nodup := by
    intro c _ owners hvalue
    obtain ⟨struck, hstruck, -, rfl⟩ := Run.mem_of_valueAt?_eq_some hvalue
    obtain ⟨e, he, rfl⟩ := List.mem_map.1 hstruck
    exact ⟨h e he, (r.hasPrimaries e he).2.filter _⟩
  obtain ⟨r', hr', hregion, hvalue⟩ := exists_ofEntries? r.node r.policy r.primaryReplicas
    r.secondaryReplicas r.tolerance htiles hprimaries
  refine ⟨r', ?_, hregion, fun c => (hvalue c).trans (valueAt?_map_strike E _ c)⟩
  unfold without?
  rw [strikeFrom_eq_ok.2 ⟨h, rfl⟩]
  exact hr'

theorem of_without? (h : r.without? E = .ok r') :
    (∀ e ∈ r.entries.toList, E.filter e.owners.primary ≠ []) ∧ r'.region = r.region ∧
      ∀ c, Run.valueAt? r'.entries.toList c =
        (Run.valueAt? r.entries.toList c).map E.filterOwners := by
  obtain ⟨struck, hstruck, -⟩ := bind_eq_ok.1 h
  have hkept := (strikeFrom_eq_ok.1 hstruck).1
  obtain ⟨_, hr', hstripped⟩ := exists_without? hkept
  obtain rfl := Except.ok.inj (hr'.symm.trans h)
  exact ⟨hkept, hstripped⟩

end Ring

/-! ### Striking from a tree -/

namespace Tree

/-- One tree is another with excluded owners struck from every ring. -/
structure Struck (E : Exclusions) (t t' : Tree) : Prop where
  topology : t'.topology = t.topology
  parent : t'.parent = t.parent
  region : t'.region = t.region
  struck : ∀ id ring, t.ring? id = some ring →
    ∃ ring', t'.ring? id = some ring' ∧ ring.without? E = .ok ring'
  rings : ∀ id ring', t'.ring? id = some ring' →
    ∃ ring, t.ring? id = some ring ∧ ring.without? E = .ok ring'

variable {E : Exclusions} {t t' : Tree} {created : UInt64} {c depth : Nat} {id : NodeId} {o : Owners}

theorem struck_of_without? (h : t.without? E created = .ok t') : t.Struck E t' := by
  obtain ⟨rings, hrings, h⟩ := bind_eq_ok.1 h
  obtain rfl := Except.ok.inj h
  have hmem : ∀ {id ring'}, (id, ring') ∈ rings ↔
      ∃ ring, t.ring? id = some ring ∧ ring.without? E = .ok ring' := by
    intro id ring'
    rw [mem_iff_of_mapM_eq_ok hrings]
    constructor
    · rintro ⟨⟨id', ring⟩, hring, hstep⟩
      obtain ⟨stripped, hstripped, heq⟩ := bind_eq_ok.1 hstep
      cases heq
      exact ⟨ring, Std.ExtTreeMap.mem_toList_iff_getElem?_eq_some.1 hring, hstripped⟩
    · rintro ⟨ring, hring, hstripped⟩
      refine ⟨(id, ring), Std.ExtTreeMap.mem_toList_iff_getElem?_eq_some.2 hring, ?_⟩
      exact bind_eq_ok.2 ⟨ring', hstripped, rfl⟩
  -- The rings keep their nodes.
  have hkeys : List.Forall₂ (· = ·) (t.rings.toList.map Prod.fst) (rings.map Prod.fst) := by
    refine List.forall₂_map_left_iff.2 (List.forall₂_map_right_iff.2 ?_)
    refine (forall₂_of_mapM_eq_ok hrings).imp fun pair pair' hstep => ?_
    obtain ⟨_, -, heq⟩ := bind_eq_ok.1 hstep
    cases heq
    rfl
  rw [List.forall₂_eq_eq_eq, Std.ExtTreeMap.map_fst_toList_eq_keys] at hkeys
  have hnodup : (rings.map Prod.fst).Nodup := by
    rw [← hkeys]
    exact Std.ExtTreeMap.nodup_keys
  refine ⟨rfl, rfl, rfl, fun id ring hring => ?_, fun id ring' hring' => ?_⟩
  · have hid : id ∈ rings.map Prod.fst := by
      rw [← hkeys, ← Std.ExtTreeMap.map_fst_toList_eq_keys]
      exact List.mem_map_of_mem (Std.ExtTreeMap.mem_toList_iff_getElem?_eq_some.2 hring)
    obtain ⟨⟨_, ring'⟩, hring', rfl⟩ := List.mem_map.1 hid
    obtain ⟨ring₀, hring₀, hstripped⟩ := hmem.1 hring'
    obtain rfl := Option.some.inj (hring.symm.trans hring₀)
    exact ⟨ring', (getElem?_ofList_eq_some_iff hnodup).2 hring', hstripped⟩
  · exact hmem.1 ((getElem?_ofList_eq_some_iff hnodup).1 hring')

/-- Striking fails exactly if some entry of some ring would lose its last primary owner. -/
theorem without?_eq_error_iff : (∃ e, t.without? E created = .error e) ↔
    ∃ id ring, t.ring? id = some ring ∧
      ∃ e ∈ ring.entries.toList, ∀ owner ∈ e.owners.primary, E.excludes owner = true := by
  constructor
  · rintro ⟨defect, hdefect⟩
    by_contra hnone
    have hkept : ∀ pair ∈ t.rings.toList, ∃ pair', (do
        let stripped ← pair.2.without? E
        return (pair.1, stripped) : Except RingDefect (NodeId × Ring)) = .ok pair' := by
      rintro ⟨id, ring⟩ hring
      obtain ⟨ring', hring', -⟩ := Ring.exists_without? (r := ring) (E := E) fun e he hall =>
        hnone ⟨id, ring, Std.ExtTreeMap.mem_toList_iff_getElem?_eq_some.1 hring, e, he,
          Exclusions.filter_eq_nil_iff.1 hall⟩
      exact ⟨(id, ring'), bind_eq_ok.2 ⟨ring', hring', rfl⟩⟩
    obtain ⟨rings, hrings⟩ := exists_mapM_eq_ok hkept
    have hok : t.without? E created = .ok { t with rings := .ofList rings, created } :=
      bind_eq_ok.2 ⟨rings, hrings, rfl⟩
    rw [hok] at hdefect
    cases hdefect
  · rintro ⟨id, ring, hring, e, he, hall⟩
    cases hstrike : t.without? E created with
    | error defect => exact ⟨defect, rfl⟩
    | ok t' =>
      obtain ⟨ring', -, hstripped⟩ := (struck_of_without? hstrike).struck id ring hring
      exact absurd (Exclusions.filter_eq_nil_iff.2 hall) ((Ring.of_without? hstripped).1 e he)

/-! ### What comes up from a struck tree -/

/-- A group from which owners come up has a ring. -/
theorem exists_ring_of_ownersUnder {node : Node} (hnode : t.topology.node id = .ok node)
    (hgroup : node.isServer = false) (ho : t.ownersUnder c depth id = .ok o) :
    ∃ ring, t.ring? id = some ring := by
  cases depth with
  | zero => cases ho
  | succ depth =>
    obtain ⟨node', hnode', hcases⟩ := ownersUnder_eq_ok.1 ho
    obtain rfl := Except.ok.inj (hnode.symm.trans hnode')
    rcases hcases with ⟨hserver, -⟩ | ⟨-, ring, -, -, hring, -⟩
    · rw [hgroup] at hserver
      cases hserver
    · exact ⟨ring, hring⟩

/-- A coordinate that the ring of a group does not hold stops there. -/
theorem ownersUnder_eq_notCovered {node : Node} {ring : Ring} (hnode : t.topology.node id = .ok node)
    (hgroup : node.isServer = false) (hring : t.ring? id = some ring) (hc : c ∉ ring.region) :
    t.ownersUnder c (depth + 1) id = .error (.invalidRing (.notCovered id c)) := by
  rw [ownersUnder_of_ring hnode hgroup (ringOf_eq_ok.2 hring)]
  unfold ownersThrough
  rw [ring.valueAt?_eq_none hc]

/-- Only servers are excluded. -/
def ExcludesServers (t : Tree) (E : Exclusions) : Prop :=
  ∀ id node, E.excludes id = true → t.topology.node id = .ok node → node.isServer = true

/-- Nothing is left of what comes up from an excluded owner: it is the owner itself. -/
theorem filterOwners_of_excludes (hE : t.ExcludesServers E) (hid : E.excludes id = true)
    (ho : t.ownersUnder c depth id = .ok o) : E.filterOwners o = ⟨[], []⟩ := by
  cases depth with
  | zero => cases ho
  | succ depth =>
    obtain ⟨node, hnode, hcases⟩ := ownersUnder_eq_ok.1 ho
    rcases hcases with ⟨-, rfl⟩ | ⟨hgroup, -⟩
    · have hnone : [id].filter (fun id => !E.excludes id) = [] := by simp [hid]
      show Owners.mk ([id].filter fun id => !E.excludes id) [] = _
      rw [hnone]
    · rw [hE id node hid hnode] at hgroup
      cases hgroup

namespace Struck

/-- What comes up from below a node is what came up before, without the excluded servers. -/
theorem ownersUnder (h : t.Struck E t') (hE : t.ExcludesServers E) (hid : E.excludes id = false)
    (ho : t.ownersUnder c depth id = .ok o) :
    t'.ownersUnder c depth id = .ok (E.filterOwners o) := by
  induction depth generalizing id o with
  | zero => cases ho
  | succ depth ih =>
    obtain ⟨node, hnode, hcases⟩ := ownersUnder_eq_ok.1 ho
    refine ownersUnder_eq_ok.2 ⟨node, by rw [h.topology, hnode], ?_⟩
    rcases hcases with ⟨hserver, rfl⟩ | ⟨hgroup, ring, owners, under, hring, hvalue, hunder, rfl⟩
    · have hkept : [id].filter (fun id => !E.excludes id) = [id] := by simp [hid]
      exact Or.inl ⟨hserver, congrArg (fun ids => Owners.mk ids []) hkept⟩
    · obtain ⟨ring', hring', hstripped⟩ := h.struck id ring hring
      have hvalue' : Run.valueAt? ring'.entries.toList c = some (E.filterOwners owners) := by
        rw [(Ring.of_without? hstripped).2.2, hvalue]
        rfl
      refine Or.inr ⟨hgroup, ring', E.filterOwners owners, fun child => E.filterOwners (under child),
        hring', hvalue', fun child hchild => ?_, Owners.filter_through fun child hchild hout => ?_⟩
      · -- An owner that stays was an owner before, and is not excluded.
        have hmem : child ∈ owners.every.filter fun id => !E.excludes id := by
          rw [← Owners.filter_every]
          exact hchild
        obtain ⟨hchild, hkept⟩ := List.mem_filter.1 hmem
        exact ih (by simpa using hkept) (hunder child hchild)
      · exact filterOwners_of_excludes hE (by simpa using hout) (hunder child hchild)

theorem region_eq (h : t.Struck E t') (hregions : ∀ id ring, t.ring? id = some ring →
    ring.region = t.region) (id : NodeId) (ring' : Ring) (hring' : t'.ring? id = some ring') :
    ring'.region = t'.region := by
  obtain ⟨ring, hring, hstripped⟩ := h.rings id ring' hring'
  rw [(Ring.of_without? hstripped).2.1, hregions id ring hring, h.region]

theorem depthLimit (h : t.Struck E t') : t'.depthLimit = t.depthLimit := by
  unfold Tree.depthLimit
  rw [h.topology]

variable {map : ReplicaMap}

/-- The struck tree is flattened as well, to the map with the servers struck from it. -/
theorem exists_flatten (h : t.Struck E t') (hE : t.ExcludesServers E)
    (hregions : ∀ id ring, t.ring? id = some ring → ring.region = t.region)
    (hparent : E.excludes t.parent = false) (hmap : t.flatten t.parent = .ok map) :
    ∃ map', t'.flatten t.parent = .ok map' ∧
      map'.entries.toList = Run.merge (map.entries.toList.map E.strike) := by
  have hrings : ∀ id ring, t.ring? id = some ring → ring.region.Encloses t.region :=
    fun id ring hring => Region.encloses_of_eq (hregions id ring hring)
  have hrings' : ∀ id ring', t'.ring? id = some ring' → ring'.region.Encloses t'.region :=
    fun id ring' hring' => Region.encloses_of_eq (h.region_eq hregions id ring' hring')
  have howners : ∀ c ∈ t.region, ∃ o, Run.valueAt? map.entries.toList c = some o ∧
      t'.ownersUnder c t'.depthLimit t'.parent = .ok (E.filterOwners o) := by
    intro c hc
    obtain ⟨o, ho, hvalue⟩ := exists_owners_of_flatten hrings hmap hc
    rw [h.depthLimit, h.parent]
    exact ⟨o, hvalue, h.ownersUnder hE hparent ho⟩
  obtain ⟨map', hmap'⟩ := Tree.exists_flatten hrings' fun c hc => by
    obtain ⟨o, -, ho⟩ := howners c (by rwa [← h.region])
    exact ⟨_, ho⟩
  refine ⟨map', by rw [← h.parent, hmap'], ?_⟩
  have hstruck : Run.InOrder (map.entries.toList.map E.strike) := map.tiles.inOrder.map fun _ => rfl
  refine Run.eq_of_valueAt? map'.tiles.inOrder hstruck.merge map'.merged (Run.merged_merge _)
    fun c => ?_
  rw [Run.valueAt?_merge, valueAt?_map_strike]
  have hregion : map.region = t.region := region_of_flatten hmap
  have hregion' : map'.region = t.region := (region_of_flatten hmap').trans h.region
  by_cases hc : c ∈ t.region
  · obtain ⟨o, hvalue, ho⟩ := howners c hc
    obtain ⟨o', ho', hvalue'⟩ := exists_owners_of_flatten hrings' hmap' (by rwa [h.region])
    obtain rfl := Except.ok.inj (ho.symm.trans ho')
    rw [hvalue, hvalue']
    rfl
  · rw [map.valueAt?_eq_none (by rwa [hregion]), map'.valueAt?_eq_none (by rwa [hregion'])]
    rfl

/-- The struck tree answers every query as the tree did, without the excluded servers; both fail
outside the region. -/
theorem ownersAt (h : t.Struck E t') (hE : t.ExcludesServers E)
    (hregions : ∀ id ring, t.ring? id = some ring → ring.region = t.region) {node : Node}
    (hnode : t.topology.node t.parent = .ok node) (hgroup : node.isServer = false)
    (hparent : E.excludes t.parent = false) (hmap : t.flatten t.parent = .ok map) (c : Nat)
    (mode : QueryMode) : t'.ownersAt c mode = (t.ownersAt c mode).map E.filter := by
  have hrings : ∀ id ring, t.ring? id = some ring → ring.region.Encloses t.region :=
    fun id ring hring => Region.encloses_of_eq (hregions id ring hring)
  have howners : ∀ c ∈ t.region, ∃ o, t.ownersUnder c t.depthLimit t.parent = .ok o := by
    intro c hc
    obtain ⟨o, ho, -⟩ := exists_owners_of_flatten hrings hmap hc
    exact ⟨o, ho⟩
  unfold Tree.ownersAt
  rw [h.depthLimit, h.parent]
  by_cases hc : c ∈ t.region
  · obtain ⟨o, ho⟩ := howners c hc
    rw [ho, h.ownersUnder hE hparent ho]
    exact congrArg Except.ok (E.inMode_filterOwners o mode)
  · -- The parent has a ring, and the ring does not hold the coordinate.
    obtain ⟨ring, hring⟩ : ∃ ring, t.ring? t.parent = some ring := by
      obtain ⟨o, ho⟩ := howners t.region.first ⟨Nat.le_refl _, t.region.first_le_last⟩
      exact exists_ring_of_ownersUnder hnode hgroup ho
    obtain ⟨ring', hring', -⟩ := h.struck t.parent ring hring
    have hout : c ∉ ring.region := by rwa [hregions _ ring hring]
    have hout' : c ∉ ring'.region := by rwa [h.region_eq hregions _ ring' hring', h.region]
    have hnode' : t'.topology.node t.parent = .ok node := by rw [h.topology, hnode]
    unfold Tree.depthLimit
    rw [ownersUnder_eq_notCovered hnode hgroup hring hout,
      ownersUnder_eq_notCovered hnode' hgroup hring' hout']
    rfl

end Struck

end Tree

namespace Builder

variable {b : Builder} {r : Recipe} {prior : Option Tree} {t : Tree}

/-- A tree that was built keeps its rings but for the excluded nodes; that fails exactly if some
entry of some ring would lose its last primary owner. If only servers are excluded, the parent is no
server, and the tree can be flattened, then so can the struck tree: its replica map is that of the
tree with the excluded servers struck from all lists and neighbours joined that have become equal,
and it answers every query as the tree did, without the excluded servers. -/
theorem flatten_without (h : b.Outcome r prior (.ok t)) (E : Exclusions) (created : UInt64) :
    ((∃ e, t.without? E created = .error e) ↔ ∃ id ring, t.ring? id = some ring ∧
      ∃ e ∈ ring.entries.toList, ∀ owner ∈ e.owners.primary, E.excludes owner = true) ∧
    ∀ node map, t.topology.node t.parent = .ok node → node.isServer = false →
      t.flatten t.parent = .ok map → t.ExcludesServers E →
      ∀ t', t.without? E created = .ok t' →
        (∃ map', t'.flatten t.parent = .ok map' ∧
          map'.entries.toList = Run.merge (map.entries.toList.map E.strike)) ∧
        ∀ c mode, t'.ownersAt c mode = (t.ownersAt c mode).map E.filter := by
  obtain ⟨root, hroot, -⟩ := h.exists_root
  have hf := h.furnishes hroot
  have hregions : ∀ id ring, t.ring? id = some ring → ring.region = t.region := by
    intro id ring hring
    obtain ⟨_, _, -, -, hfor⟩ := hf.rings id ring hring
    rw [hfor.region, hf.region]
  refine ⟨Tree.without?_eq_error_iff, fun node map hnode hgroup hmap hE t' ht' => ?_⟩
  have hstruck := Tree.struck_of_without? ht'
  have hparent : E.excludes t.parent = false := by
    cases hout : E.excludes t.parent with
    | false => rfl
    | true =>
      rw [hE t.parent node hout hnode] at hgroup
      cases hgroup
  exact ⟨hstruck.exists_flatten hE hregions hparent hmap,
    hstruck.ownersAt hE hregions hnode hgroup hparent hmap⟩

/-- The cluster of two racks with two primary servers in a rack, as far as there are two. -/
def pairedRecipe : Recipe :=
  { twoRacksRecipe "cluster" "cluster" [] with
    policies := .ofList [⟨"cluster", .root, ⟨1, [⟨.rack, "rack", none⟩]⟩, some ⟨1, []⟩⟩,
      ⟨"rack", .rack, ⟨2, []⟩, none⟩] }

/-- Without the second server of the first rack, the first server is left there. Without the only
server of the second rack, nothing would be. -/
theorem flatten_without_secondServer :
    ∃ t t' map map', standard.Outcome pairedRecipe none (.ok t) ∧ t.flatten t.parent = .ok map ∧
      t.ExcludesServers (.ofList ["b"]) ∧ t.without? (.ofList ["b"]) 5 = .ok t' ∧
      t'.flatten t.parent = .ok map' ∧
      map'.entries.toList = Run.merge (map.entries.toList.map (Exclusions.ofList ["b"]).strike) ∧
      t.ownersAt 0 .all = .ok ["a", "b", "c"] ∧ t'.ownersAt 0 .all = .ok ["a", "c"] ∧
      ∃ id ring, t.ring? id = some ring ∧ ∃ e ∈ ring.entries.toList,
        ∀ owner ∈ e.owners.primary, (Exclusions.ofList ["c"]).excludes owner = true := by
  obtain ⟨t, houtcome, htest⟩ := exists_outcome
    (show ((standard.build pairedRecipe none).toOption.any fun t =>
      t.topology = Tree.twoRacks ∧ t.parent = "cluster" ∧
        (t.flatten t.parent).toOption.isSome ∧ (t.without? (.ofList ["b"]) 5).toOption.isSome ∧
        (t.without? (.ofList ["c"]) 5).toOption.isNone ∧
        (t.ownersAt 0 .all).toOption = some ["a", "b", "c"]) = true
      by decide +kernel)
  obtain ⟨htopology, hparent, hflat, hwithout, hfails, howners⟩ := of_decide_eq_true htest
  obtain ⟨map, hmap⟩ := Option.isSome_iff_exists.1 hflat
  obtain ⟨t', ht'⟩ := Option.isSome_iff_exists.1 hwithout
  rw [toOption_eq_some] at hmap ht' howners
  have hnode : t.topology.node t.parent = .ok Tree.twoRacks.root := by
    rw [htopology, hparent]
    exact Topology.node_eq_ok_iff.2 ⟨Node.self_mem_nodes _, rfl⟩
  have hserver : t.topology.node "b" = .ok (.server "b") := by
    rw [htopology]
    exact Topology.node_eq_ok_iff.2 ⟨by decide +kernel, rfl⟩
  have hE : t.ExcludesServers (.ofList ["b"]) := by
    intro id node hid hfound
    obtain rfl : "b" = id := by simpa [Exclusions.excludes, Exclusions.ofList] using hid
    obtain rfl := Except.ok.inj (hserver.symm.trans hfound)
    rfl
  obtain ⟨⟨map', hmap', hentries⟩, hsame⟩ :=
    (flatten_without houtcome (.ofList ["b"]) 5).2 _ map hnode rfl hmap hE t' ht'
  have hrefused := (flatten_without houtcome (.ofList ["c"]) 5).1.1 (by
    cases hstrike : t.without? (.ofList ["c"]) 5 with
    | error e => exact ⟨e, rfl⟩
    | ok _ =>
      rw [hstrike] at hfails
      cases hfails)
  refine ⟨t, t', map, map', houtcome, hmap, hE, ht', hmap', hentries, howners, ?_, hrefused⟩
  rw [hsame, howners]
  have hleft : (Exclusions.ofList ["b"]).filter ["a", "b", "c"] = ["a", "c"] := by decide +kernel
  exact congrArg Except.ok hleft

end Builder

end ReplicaRing
