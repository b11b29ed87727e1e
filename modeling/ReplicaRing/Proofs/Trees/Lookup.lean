import ReplicaRing.Proofs.ReplicaMaps
import ReplicaRing.Proofs.Results
import ReplicaRing.Proofs.Rings
import ReplicaRing.Proofs.Unions
import ReplicaRing.Tree

/-!
# Looking a coordinate up in a tree and in its replica map

Routing one coordinate down a tree and routing a whole region at once follow the same rings. By
induction on the depth, the entries that come up from below a node for a region list the owners of
each coordinate that come up for it alone, wherever any do (`Tree.entriesUnder_follows`). They do
wherever each ring on the way holds the coordinate (`Tree.exists_ownersUnder`). So a tree whose rings
hold its region and its replica map answer every query alike (`Tree.ownersAt_eq_flatten`).
-/

namespace ReplicaRing

namespace Tree

variable {t : Tree} {c depth : Nat} {id : NodeId} {o : Owners} {region piece : Region} {ring : Ring}
  {entries : List Entry}

theorem ringOf_eq_ok : t.ringOf id = .ok ring ↔ t.ring? id = some ring := by
  unfold ringOf
  cases t.ring? id <;> simp

/-! ### One step down -/

/-- The part of a ring's entry in a region, resolved further down. -/
def entriesWithin (t : Tree) (depth : Nat) (region : Region) (e : Entry) :
    Except Error (List Entry) :=
  match e.region.inter? region with
  | none => return []
  | some piece => do
    let primaries ← e.owners.primary.mapM (t.entriesUnder depth · piece)
    let secondaries ← e.owners.secondary.mapM (t.entriesUnder depth · piece)
    return superpose piece (primaries ++ secondaries.map (·.map demoteEntry))

/-- The entries that come up for a region through a ring. -/
def entriesThrough (t : Tree) (depth : Nat) (region : Region) (ring : Ring) :
    Except Error (List Entry) :=
  ((ring.overlapping region).mapM (t.entriesWithin depth region)).map List.flatten

/-- The owners that come up for a coordinate from some owners of a ring. -/
def ownersBelow (t : Tree) (c depth : Nat) (o : Owners) : Except Error Owners := do
  let primaries ← o.primary.mapM (t.ownersUnder c depth)
  let secondaries ← o.secondary.mapM (t.ownersUnder c depth)
  return Owners.union (primaries ++ secondaries.map Owners.demote)

/-- The owners that come up for a coordinate through the ring of a node. -/
def ownersThrough (t : Tree) (id : NodeId) (depth : Nat) (ring : Ring) (c : Nat) :
    Except Error Owners :=
  match Run.valueAt? ring.entries.toList c with
  | none => .error (.invalidRing (.notCovered id c))
  | some owners => t.ownersBelow c depth owners

/-- Owners are resolved if each of them is. -/
theorem ownersBelow_eq_ok {below : Owners} : t.ownersBelow c depth o = .ok below ↔
    ∃ under, (∀ child ∈ o.every, t.ownersUnder c depth child = .ok (under child)) ∧
      below = o.through under := by
  have : Inhabited Owners := ⟨⟨[], []⟩⟩
  exact mapM_mapM_eq_ok_iff

theorem ownersUnder_of_server {node : Node} (hnode : t.topology.node id = .ok node)
    (hserver : node.isServer = true) : t.ownersUnder c (depth + 1) id = .ok ⟨[id], []⟩ := by
  rw [ownersUnder, hnode]
  dsimp only [bind, Except.bind]
  rw [if_pos hserver]
  rfl

theorem ownersUnder_of_ring {node : Node} (hnode : t.topology.node id = .ok node)
    (hserver : node.isServer = false) (hring : t.ringOf id = .ok ring) :
    t.ownersUnder c (depth + 1) id = t.ownersThrough id depth ring c := by
  rw [ownersUnder, hnode, hring]
  dsimp only [bind, Except.bind]
  rw [if_neg (by simp [hserver]), ownersThrough, ← ring.map_value_entryAt?]
  cases ring.entryAt? c <;> rfl

/-- A coordinate stops at a server, or goes on to its owners in the ring of the node. -/
theorem ownersUnder_eq_ok : t.ownersUnder c (depth + 1) id = .ok o ↔
    ∃ node, t.topology.node id = .ok node ∧ (node.isServer = true ∧ o = ⟨[id], []⟩ ∨
      node.isServer = false ∧ ∃ ring owners under, t.ring? id = some ring ∧
        Run.valueAt? ring.entries.toList c = some owners ∧
        (∀ child ∈ owners.every, t.ownersUnder c depth child = .ok (under child)) ∧
        o = owners.through under) := by
  constructor
  · intro h
    have hstep := h
    rw [ownersUnder] at hstep
    obtain ⟨node, hnode, hstep⟩ := bind_eq_ok.1 hstep
    refine ⟨node, hnode, ?_⟩
    cases hserver : node.isServer with
    | true =>
      rw [ownersUnder_of_server hnode hserver] at h
      exact Or.inl ⟨rfl, (Except.ok.inj h).symm⟩
    | false =>
      rw [if_neg (by simp [hserver])] at hstep
      obtain ⟨ring, hring, -⟩ := bind_eq_ok.1 hstep
      rw [ownersUnder_of_ring hnode hserver hring] at h
      unfold ownersThrough at h
      split at h
      · cases h
      · rename_i owners hvalue
        obtain ⟨under, hunder, rfl⟩ := ownersBelow_eq_ok.1 h
        exact Or.inr ⟨rfl, ring, owners, under, ringOf_eq_ok.1 hring, hvalue, hunder, rfl⟩
  · rintro ⟨node, hnode, ⟨hserver, rfl⟩ |
      ⟨hserver, ring, owners, under, hring, hvalue, hunder, rfl⟩⟩
    · exact ownersUnder_of_server hnode hserver
    · rw [ownersUnder_of_ring hnode hserver (ringOf_eq_ok.2 hring)]
      unfold ownersThrough
      rw [hvalue]
      exact ownersBelow_eq_ok.2 ⟨under, hunder, rfl⟩

theorem entriesUnder_of_server {node : Node} (hnode : t.topology.node id = .ok node)
    (hserver : node.isServer = true) :
    t.entriesUnder (depth + 1) id region = .ok [⟨region, [id], []⟩] := by
  rw [entriesUnder, hnode]
  dsimp only [bind, Except.bind]
  rw [if_pos hserver]
  rfl

theorem entriesUnder_of_ring {node : Node} (hnode : t.topology.node id = .ok node)
    (hserver : node.isServer = false) (hring : t.ring? id = some ring) :
    t.entriesUnder (depth + 1) id region = t.entriesThrough depth region ring := by
  rw [entriesUnder, hnode, ringOf_eq_ok.2 hring]
  dsimp only [bind, Except.bind]
  rw [if_neg (by simp [hserver])]
  show ((ring.overlapping region).mapM (t.entriesWithin depth region) >>= fun pieces =>
    return pieces.flatten) = _
  unfold entriesThrough
  cases (ring.overlapping region).mapM (t.entriesWithin depth region) <;> rfl

/-- A region stops at a server, or goes on through the ring of the node. -/
theorem entriesUnder_eq_ok : t.entriesUnder (depth + 1) id region = .ok entries ↔
    ∃ node, t.topology.node id = .ok node ∧
      (node.isServer = true ∧ entries = [⟨region, [id], []⟩] ∨
        node.isServer = false ∧ ∃ ring, t.ring? id = some ring ∧
          t.entriesThrough depth region ring = .ok entries) := by
  constructor
  · intro h
    have hstep := h
    rw [entriesUnder] at hstep
    obtain ⟨node, hnode, hstep⟩ := bind_eq_ok.1 hstep
    refine ⟨node, hnode, ?_⟩
    cases hserver : node.isServer with
    | true =>
      rw [entriesUnder_of_server hnode hserver] at h
      exact Or.inl ⟨rfl, (Except.ok.inj h).symm⟩
    | false =>
      rw [if_neg (by simp [hserver])] at hstep
      obtain ⟨ring, hring, -⟩ := bind_eq_ok.1 hstep
      have hring := ringOf_eq_ok.1 hring
      rw [entriesUnder_of_ring hnode hserver hring] at h
      exact Or.inr ⟨rfl, ring, hring, h⟩
  · rintro ⟨node, hnode, ⟨hserver, rfl⟩ | ⟨hserver, ring, hring, h⟩⟩
    · exact entriesUnder_of_server hnode hserver
    · rwa [entriesUnder_of_ring hnode hserver hring]

/-- An entry is resolved if each of its owners is. -/
theorem entriesWithin_eq_ok {e : Entry} (hpiece : e.region.inter? region = some piece) :
    t.entriesWithin depth region e = .ok entries ↔
      ∃ under, (∀ owner ∈ e.owners.every, t.entriesUnder depth owner piece = .ok (under owner)) ∧
        entries = superpose piece (e.owners.primary.map under ++
          (e.owners.secondary.map under).map (·.map demoteEntry)) := by
  unfold entriesWithin
  rw [hpiece]
  exact mapM_mapM_eq_ok_iff

/-- A region gets through a ring if the part of it in each entry does. -/
theorem entriesThrough_eq_ok : t.entriesThrough depth region ring = .ok entries ↔
    ∃ within : Entry → List Entry,
      (∀ e ∈ ring.entries.toList, e.region.Overlaps region →
        t.entriesWithin depth region e = .ok (within e)) ∧
      entries = (ring.entries.toList.filter fun e =>
        decide (e.region.Overlaps region)).flatMap within := by
  have hoverlapping : ring.overlapping region =
      ring.entries.toList.filter fun e => decide (e.region.Overlaps region) :=
    Run.overlapping_eq_filter ring.tiles region
  unfold entriesThrough
  rw [hoverlapping]
  constructor
  · intro h
    obtain ⟨pieces, hpieces, rfl⟩ := map_eq_ok.1 h
    obtain ⟨within, rfl, hall⟩ := exists_map_of_mapM_eq_ok hpieces
    refine ⟨within, fun e he hoverlaps => ?_, (List.flatMap_def ..).symm⟩
    exact hall e (List.mem_filter.2 ⟨he, decide_eq_true hoverlaps⟩)
  · rintro ⟨within, hall, rfl⟩
    have hpieces : (ring.entries.toList.filter fun e => decide (e.region.Overlaps region)).mapM
        (t.entriesWithin depth region) = .ok _ := mapM_eq_ok_map fun e he =>
      hall e (List.mem_filter.1 he).1 (of_decide_eq_true (List.mem_filter.1 he).2)
    exact map_eq_ok.2 ⟨_, hpieces, (List.flatMap_def ..).symm⟩

/-! ### Agreement -/

/-- Entries for a region list what comes up for a coordinate alone, wherever anything does. -/
structure Follows (region : Region) (entries : List Entry) (under : Nat → Except Error Owners) :
    Prop where
  inOrder : Run.InOrder entries
  encloses : ∀ e ∈ entries, region.Encloses e.region
  value : ∀ c ∈ region, ∀ o, under c = .ok o → Run.valueAt? entries c = some o

theorem follows_of_tiles {under : Nat → Except Error Owners} (h : Run.Tiles region entries)
    (hvalue : ∀ c ∈ region, ∀ o, under c = .ok o → Run.valueAt? entries c = some o) :
    Follows region entries under :=
  ⟨h.inOrder, fun _ he => h.bounds he, hvalue⟩

theorem filterMap_map_eq_map {α β γ : Type} {list : α → β} {value : β → Option γ} {under : α → γ}
    {xs : List α} (h : ∀ x ∈ xs, value (list x) = some (under x)) :
    (xs.map list).filterMap value = xs.map under := by
  rw [List.filterMap_map, ← List.filterMap_eq_map]
  exact List.filterMap_congr h

/-- What comes up through some owners is what comes up from them, superposed, with secondary owners
demoted. -/
theorem valueAt?_superpose_through {list : NodeId → List Entry} {under : NodeId → Owners}
    (hc : c ∈ piece) (hlist : ∀ owner ∈ o.every, Run.InOrder (list owner) ∧
      (∀ e ∈ list owner, piece.Encloses e.region) ∧
        Run.valueAt? (list owner) c = some (under owner)) :
    Run.valueAt? (superpose piece (o.primary.map list ++
      (o.secondary.map list).map (·.map demoteEntry))) c = some (o.through under) := by
  have hdemoted : ∀ owner ∈ o.every,
      Run.valueAt? ((list owner).map demoteEntry) c = some (under owner).demote := by
    intro owner howner
    rw [Run.valueAt?_map (f := demoteEntry) (g := Owners.demote) (fun _ => rfl) (fun _ => rfl),
      (hlist owner howner).2.2]
    rfl
  rw [List.map_map]
  have hlists : ∀ entries ∈ o.primary.map list ++
      o.secondary.map ((·.map demoteEntry) ∘ list), Run.InOrder entries ∧
        (∀ e ∈ entries, piece.Encloses e.region) ∧ (Run.valueAt? entries c).isSome := by
    intro entries hmem
    rcases List.mem_append.1 hmem with hmem | hmem
    · obtain ⟨owner, howner, rfl⟩ := List.mem_map.1 hmem
      obtain ⟨hinOrder, hencloses, hvalue⟩ := hlist owner (Owners.mem_every.2 (Or.inl howner))
      exact ⟨hinOrder, hencloses, by rw [hvalue]; rfl⟩
    · obtain ⟨owner, howner, rfl⟩ := List.mem_map.1 hmem
      have hevery := Owners.mem_every.2 (Or.inr howner)
      obtain ⟨hinOrder, hencloses, -⟩ := hlist owner hevery
      exact ⟨hinOrder.map fun _ => rfl, List.forall_mem_map.2 hencloses,
        by rw [Function.comp, hdemoted owner hevery]; rfl⟩
  rw [valueAt?_superpose (fun l hl => (hlists l hl).1) (fun l hl => (hlists l hl).2.1) hc
    fun l hl => (hlists l hl).2.2]
  have hprimaries : (o.primary.map list).filterMap (Run.valueAt? · c) = o.primary.map under :=
    filterMap_map_eq_map fun owner howner => (hlist owner (Owners.mem_every.2 (Or.inl howner))).2.2
  have hsecondaries : (o.secondary.map ((·.map demoteEntry) ∘ list)).filterMap (Run.valueAt? · c) =
      o.secondary.map (Owners.demote ∘ under) :=
    filterMap_map_eq_map fun owner howner => hdemoted owner (Owners.mem_every.2 (Or.inr howner))
  rw [unionAt, List.filterMap_append, hprimaries, hsecondaries, Owners.through, List.map_map]

/-- If what comes up from below follows, so does what comes up from the owners of an entry. -/
theorem value_entriesWithin {e : Entry} (hpiece : e.region.inter? region = some piece)
    (hbelow : ∀ id entries, t.entriesUnder depth id piece = .ok entries →
      Follows piece entries (t.ownersUnder · depth id))
    (h : t.entriesWithin depth region e = .ok entries) (hc : c ∈ piece)
    (ho : t.ownersBelow c depth e.owners = .ok o) : Run.valueAt? entries c = some o := by
  obtain ⟨list, hlist, rfl⟩ := (entriesWithin_eq_ok hpiece).1 h
  obtain ⟨under, hunder, rfl⟩ := ownersBelow_eq_ok.1 ho
  refine valueAt?_superpose_through hc fun owner howner => ?_
  have hfollows := hbelow owner _ (hlist owner howner)
  exact ⟨hfollows.inOrder, hfollows.encloses, hfollows.value c hc _ (hunder owner howner)⟩

theorem tiles_entriesWithin {e : Entry} (hpiece : e.region.inter? region = some piece)
    (h : t.entriesWithin depth region e = .ok entries) : Run.Tiles piece entries := by
  obtain ⟨list, -, rfl⟩ := (entriesWithin_eq_ok hpiece).1 h
  exact superpose_tiles ..

/-- What comes up for the part of a region in an entry lies in both. -/
theorem encloses_entriesWithin {e x : Entry} (hpiece : e.region.inter? region = some piece)
    (h : t.entriesWithin depth region e = .ok entries) (hx : x ∈ entries) :
    e.region.Encloses x.region ∧ region.Encloses x.region := by
  have hin : piece.Encloses x.region := (tiles_entriesWithin hpiece h).bounds hx
  obtain ⟨hentry, hregion⟩ := Region.encloses_of_inter? hpiece
  exact ⟨hentry.trans hin, hregion.trans hin⟩

/-- What a region gets through a ring, piece by piece. -/
theorem exists_pieces_of_entriesThrough (h : t.entriesThrough depth region ring = .ok entries) :
    ∃ within : Entry → List Entry, entries = (ring.entries.toList.filter fun e =>
        decide (e.region.Overlaps region)).flatMap within ∧
      ∀ e ∈ ring.entries.toList, e.region.Overlaps region → ∃ piece : Region,
        e.region.inter? region = some piece ∧ piece.first = max e.region.first region.first ∧
          piece.last = min e.region.last region.last ∧
          t.entriesWithin depth region e = .ok (within e) := by
  obtain ⟨within, hwithin, rfl⟩ := entriesThrough_eq_ok.1 h
  refine ⟨within, rfl, fun e he hoverlaps => ?_⟩
  obtain ⟨piece, hpiece, hfirst, hlast⟩ := Region.inter?_of_overlaps hoverlaps
  exact ⟨piece, hpiece, hfirst, hlast, hwithin e he hoverlaps⟩

/-- If what comes up from below follows, so does what comes up through a ring. -/
theorem follows_entriesThrough
    (hbelow : ∀ piece : Region, region.Encloses piece → ∀ id entries,
      t.entriesUnder depth id piece = .ok entries → Follows piece entries (t.ownersUnder · depth id))
    (h : t.entriesThrough depth region ring = .ok entries) :
    Follows region entries (t.ownersThrough id depth ring) := by
  obtain ⟨within, rfl, hpieces⟩ := exists_pieces_of_entriesThrough h
  have hbounds : ∀ e ∈ ring.entries.toList.filter (fun e => decide (e.region.Overlaps region)),
      Run.InOrder (within e) ∧ ∀ x ∈ within e,
        e.region.Encloses x.region ∧ region.Encloses x.region := by
    intro e he
    obtain ⟨he, hoverlaps⟩ := List.mem_filter.1 he
    obtain ⟨piece, hpiece, -, -, hwithin⟩ := hpieces e he (of_decide_eq_true hoverlaps)
    exact ⟨(tiles_entriesWithin hpiece hwithin).inOrder,
      fun x hx => encloses_entriesWithin hpiece hwithin hx⟩
  have hinOrder : Run.InOrder ((ring.entries.toList.filter fun e =>
      decide (e.region.Overlaps region)).flatMap within) := by
    refine List.pairwise_flatMap.2 ⟨fun e he => (hbounds e he).1, ?_⟩
    refine (ring.tiles.inOrder.filter _).imp_of_mem fun {a b} ha hb hab x hx y hy => ?_
    have hxa := ((hbounds a ha).2 x hx).1.2
    have hyb := ((hbounds b hb).2 y hy).1.1
    omega
  refine ⟨hinOrder, fun x hx => ?_, fun c hc o ho => ?_⟩
  · obtain ⟨e, he, hx⟩ := List.mem_flatMap.1 hx
    exact ((hbounds e he).2 x hx).2
  · -- The coordinate lies in an entry of the ring, and in its part in the region.
    unfold ownersThrough at ho
    split at ho
    · cases ho
    · rename_i owners hvalue
      obtain ⟨e, he, hce, rfl⟩ := Run.mem_of_valueAt?_eq_some hvalue
      have hoverlaps : e.region.Overlaps region :=
        ⟨Nat.le_trans hce.1 hc.2, Nat.le_trans hc.1 hce.2⟩
      obtain ⟨piece, hpiece, hfirst, hlast, hwithin⟩ := hpieces e he hoverlaps
      have hmem : c ∈ piece := by
        rw [Region.mem_iff] at hc hce ⊢
        omega
      have hfound := value_entriesWithin hpiece
        (hbelow piece (Region.encloses_of_inter? hpiece).2) hwithin hmem ho
      obtain ⟨run, hrun, hcrun, rfl⟩ := Run.mem_of_valueAt?_eq_some hfound
      refine hinOrder.valueAt?_of_mem (List.mem_flatMap.2 ⟨e, List.mem_filter.2 ⟨he, ?_⟩, hrun⟩) hcrun
      exact decide_eq_true hoverlaps

/-- The entries that come up from below a node follow what comes up for each coordinate alone. -/
theorem entriesUnder_follows (h : t.entriesUnder depth id region = .ok entries) :
    Follows region entries (t.ownersUnder · depth id) := by
  induction depth generalizing id region entries with
  | zero => cases h
  | succ depth ih =>
    obtain ⟨node, hnode, ⟨hserver, rfl⟩ | ⟨hserver, ring, hring, hentries⟩⟩ := entriesUnder_eq_ok.1 h
    · refine follows_of_tiles ⟨rfl, rfl⟩ fun c hc o ho => ?_
      rw [ownersUnder_of_server hnode hserver] at ho
      obtain rfl := Except.ok.inj ho
      rw [Run.valueAt?_cons, if_pos hc]
    · simp only [ownersUnder_of_ring hnode hserver (ringOf_eq_ok.2 hring)]
      exact follows_entriesThrough (fun piece _ id entries => ih) hentries

/-- Entries tile a region that the ring of the node holds. -/
theorem tiles_entriesUnder (hrings : ∀ ring, t.ring? id = some ring → ring.region.Encloses region)
    (h : t.entriesUnder depth id region = .ok entries) : Run.Tiles region entries := by
  cases depth with
  | zero => cases h
  | succ depth =>
    obtain ⟨node, hnode, ⟨-, rfl⟩ | ⟨-, ring, hring, hentries⟩⟩ := entriesUnder_eq_ok.1 h
    · exact ⟨rfl, rfl⟩
    · obtain ⟨within, rfl, hpieces⟩ := exists_pieces_of_entriesThrough hentries
      have hle := region.first_le_last
      have hring := hrings ring hring
      have htiles := Run.TilesFrom.window ring.tiles region
        (Nat.le_succ_of_le (Nat.le_trans hring.1 hle)) hring.2 fun e he hoverlaps => by
          obtain ⟨piece, hpiece, hfirst, hlast, hwithin⟩ := hpieces e he hoverlaps
          rw [← hfirst, ← hlast]
          exact tiles_entriesWithin hpiece hwithin
      rwa [Nat.max_eq_right hring.1] at htiles

/-! ### Coordinates on their way -/

/-- The nodes that a coordinate comes to on its way down from the parent of a tree: the parent, and
the owners of the coordinate in the ring of each node that it comes to. -/
inductive Met (t : Tree) (c : Nat) : NodeId → Prop
  | parent : Met t c t.parent
  | owner {id owner : NodeId} {ring : Ring} (above : Met t c id) (ring_eq : t.ring? id = some ring)
    (mem : owner ∈ ring.ownersAt c .all) : Met t c owner

/-- The owners in an entry are met at each coordinate of the entry. -/
theorem Met.of_entry (hmet : t.Met c id) (hring : t.ring? id = some ring) {e : Entry}
    (he : e ∈ ring.entries.toList) (hc : c ∈ e.region) {owner : NodeId}
    (howner : owner ∈ e.owners.every) : t.Met c owner := by
  refine hmet.owner hring ?_
  rw [ring.ownersAt_of_valueAt? (ring.tiles.valueAt?_of_mem he hc)]
  exact howner

/-- A coordinate gets through a ring if it gets through its owners there. -/
theorem exists_ownersUnder_succ {node : Node} {owners : Owners}
    (hnode : t.topology.node id = .ok node) (hserver : node.isServer = false)
    (hring : t.ring? id = some ring) (hvalue : Run.valueAt? ring.entries.toList c = some owners)
    (hbelow : ∀ owner ∈ owners.every, ∃ o, t.ownersUnder c depth owner = .ok o) :
    ∃ o, t.ownersUnder c (depth + 1) id = .ok o := by
  have : Inhabited Owners := ⟨⟨[], []⟩⟩
  choose! under hunder using hbelow
  exact ⟨_, ownersUnder_eq_ok.2 ⟨node, hnode, Or.inr ⟨hserver, ring, owners, under, hring, hvalue,
    hunder, rfl⟩⟩⟩

/-- A coordinate of a region that gets through gets through alone, if all rings on its way hold
it. -/
theorem exists_ownersUnder (h : t.entriesUnder depth id region = .ok entries) (hc : c ∈ region)
    (hmet : t.Met c id)
    (hholds : ∀ id ring, t.Met c id → t.ring? id = some ring → c ∈ ring.region) :
    ∃ o, t.ownersUnder c depth id = .ok o := by
  induction depth generalizing id region entries with
  | zero => cases h
  | succ depth ih =>
    obtain ⟨node, hnode, ⟨hserver, -⟩ | ⟨hserver, ring, hring, hentries⟩⟩ := entriesUnder_eq_ok.1 h
    · exact ⟨_, ownersUnder_of_server hnode hserver⟩
    · obtain ⟨within, -, hpieces⟩ := exists_pieces_of_entriesThrough hentries
      obtain ⟨e, he, hce, hvalue⟩ := ring.exists_entry (hholds id ring hmet hring)
      have hoverlaps : e.region.Overlaps region :=
        ⟨Nat.le_trans hce.1 hc.2, Nat.le_trans hc.1 hce.2⟩
      obtain ⟨piece, hpiece, hfirst, hlast, hwithin⟩ := hpieces e he hoverlaps
      obtain ⟨list, hlist, -⟩ := (entriesWithin_eq_ok hpiece).1 hwithin
      have hmem : c ∈ piece := by
        rw [Region.mem_iff] at hc hce ⊢
        omega
      have hbelow : ∀ owner ∈ e.owners.every, ∃ o, t.ownersUnder c depth owner = .ok o :=
        fun owner howner => ih (hlist owner howner) hmem (hmet.of_entry hring he hce howner)
      exact exists_ownersUnder_succ hnode hserver hring hvalue hbelow

/-! ### The replica map -/

/-- The replica map of a tree lists for a coordinate the owners that come up for it. -/
theorem valueAt?_of_flatten {map : ReplicaMap} (h : t.flatten t.parent = .ok map)
    (hc : c ∈ t.region) (ho : t.ownersUnder c t.depthLimit t.parent = .ok o) :
    Run.valueAt? map.entries.toList c = some o := by
  obtain ⟨entries, hentries, h⟩ := bind_eq_ok.1 h
  have hfollows := entriesUnder_follows hentries
  rw [ReplicaMap.entries_of_ofEntries?_eq_ok (mapError_eq_ok.1 h),
    hfollows.inOrder.valueAt?_canonical, hfollows.value c hc o ho]

/-- If all rings hold the region of a tree that is flattened, owners come up for each coordinate. -/
theorem exists_owners_of_flatten (hrings : ∀ id ring, t.ring? id = some ring →
      ring.region.Encloses t.region) {map : ReplicaMap} (h : t.flatten t.parent = .ok map)
    (hc : c ∈ t.region) : ∃ owners, t.ownersUnder c t.depthLimit t.parent = .ok owners ∧
      Run.valueAt? map.entries.toList c = some owners := by
  obtain ⟨entries, hentries, -⟩ := bind_eq_ok.1 h
  obtain ⟨owners, howners⟩ := exists_ownersUnder hentries hc .parent
    fun id ring _ hring => (hrings id ring hring).mem hc
  exact ⟨owners, howners, valueAt?_of_flatten h hc howners⟩

theorem region_of_flatten {map : ReplicaMap} (h : t.flatten id = .ok map) :
    map.region = t.region := by
  obtain ⟨entries, -, h⟩ := bind_eq_ok.1 h
  have hmap := mapError_eq_ok.1 h
  unfold ReplicaMap.ofEntries? at hmap
  split at hmap
  · cases hmap
  · obtain rfl := Except.ok.inj hmap
    rfl

/-- A tree whose rings all hold its region answers every query for a coordinate as its replica map
does: the same servers, in the same roles and in the same order. -/
theorem ownersAt_eq_flatten (hrings : ∀ id ring, t.ring? id = some ring →
      ring.region.Encloses t.region) {map : ReplicaMap} (h : t.flatten t.parent = .ok map) {c : Nat}
    (hc : c ∈ t.region) (mode : QueryMode) : t.ownersAt c mode = .ok (map.ownersAt c mode) := by
  obtain ⟨owners, howners, hfound⟩ := exists_owners_of_flatten hrings h hc
  rw [ReplicaMap.ownersAt_of_valueAt? hfound]
  unfold ownersAt
  rw [howners]
  rfl

/-- A cluster of two racks, the first with two servers. -/
def twoRacks : Topology :=
  (Topology.ofNode? (.group "cluster" .root
    [.group "r" .rack [.server "a", .server "b"], .group "s" .rack [.server "c"]])).toOption.get
    (by decide +kernel)

/-- The rings of the two racks on eight coordinates: each rack has its half first, and the other one
second. -/
def twoRacksRings : List Ring :=
  [⟨"cluster", "standard", ⟨0, 7, by decide, by decide⟩, 1, 1, 1e-6,
    #[⟨⟨0, 3, by decide, by decide⟩, ["r"], ["s"]⟩, ⟨⟨4, 7, by decide, by decide⟩, ["s"], ["r"]⟩],
    by decide, by decide, by decide⟩,
  ⟨"r", "standard", ⟨0, 7, by decide, by decide⟩, 1, 1, 1e-6,
    #[⟨⟨0, 4, by decide, by decide⟩, ["a"], ["b"]⟩, ⟨⟨5, 7, by decide, by decide⟩, ["b"], ["a"]⟩],
    by decide, by decide, by decide⟩,
  ⟨"s", "standard", ⟨0, 7, by decide, by decide⟩, 1, 0, 1e-6,
    #[⟨⟨0, 7, by decide, by decide⟩, ["c"], []⟩], by decide, by decide, by decide⟩]

/-- The tree of the two racks. -/
def twoRacksTree : Tree :=
  ⟨twoRacks, "cluster", indexRings twoRacksRings, 1, 0, ⟨0, 7, by decide, by decide⟩⟩

theorem ownersAt_eq_flatten_twoRacks :
    ∃ map, twoRacksTree.flatten twoRacksTree.parent = .ok map ∧
      map.ownersAt 6 .all = ["c", "b", "a"] ∧
      twoRacksTree.ownersAt 6 .all = .ok (map.ownersAt 6 .all) := by
  have hvalue : ((twoRacksTree.flatten twoRacksTree.parent).toOption.map
      (·.ownersAt 6 .all)) = some ["c", "b", "a"] := by decide +kernel
  have hregions : ∀ ring ∈ twoRacksTree.rings.toList,
      ring.2.region.Encloses twoRacksTree.region := by decide +kernel
  cases hmap : twoRacksTree.flatten twoRacksTree.parent with
  | error _ =>
    rw [hmap] at hvalue
    cases hvalue
  | ok map =>
    rw [hmap] at hvalue
    refine ⟨map, rfl, Option.some.inj hvalue, ownersAt_eq_flatten (fun id ring hring => ?_) hmap
      (by decide) .all⟩
    exact hregions (id, ring) (Std.ExtTreeMap.mem_toList_iff_getElem?_eq_some.2 hring)

end Tree

end ReplicaRing
