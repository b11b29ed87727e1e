import ReplicaRing.Proofs.Layers.Prior
import ReplicaRing.Proofs.Placement.Secondaries

/-!
# From layers to rings

The entries of a ring are read off the layers at the offsets where some span starts. Between two of
them no layer changes its owner, so the entries stand for the function that gives each coordinate
the owners of its offset (`entriesOf_starts`). From a layout of quotas that use up all units a ring
always comes out (`Settled.ringOf_eq_ok`), and each coordinate has the owners that the layers give it
there.
-/

namespace ReplicaRing

open PlacementRequest (ownerAt?)

namespace Layer

/-- The members that own an offset, in the order of the layers. -/
def owners (layers : List Layer) (o : Nat) : List Nat :=
  (column layers o).filterMap id

theorem eq_map_some_filterMap {α : Type} {xs : List (Option α)} (h : ∀ x ∈ xs, ∃ a, x = some a) :
    xs = (xs.filterMap id).map some := by
  induction xs with
  | nil => rfl
  | cons x xs ih =>
    obtain ⟨a, rfl⟩ := h x (List.mem_cons_self ..)
    have hxs := ih fun x hx => h x (List.mem_cons_of_mem _ hx)
    rw [List.filterMap_cons_some (show id (some a) = some a from rfl), List.map_cons, ← hxs]

section Owners

variable {size replicas : Nat} {quotas : List Nat} {layers : List Layer}

theorem Layout.column_eq (h : Layout size replicas quotas layers)
    (hsum : sumOf quotas = size * replicas) {o : Nat} (ho : o < size) :
    column layers o = (owners layers o).map some :=
  eq_map_some_filterMap fun x hx =>
    have ⟨m, _, hm⟩ := h.owned hsum o ho x hx
    ⟨m, hm⟩

theorem Layout.length_owners (h : Layout size replicas quotas layers)
    (hsum : sumOf quotas = size * replicas) {o : Nat} (ho : o < size) :
    (owners layers o).length = replicas := by
  rw [← h.length, ← length_column layers o, h.column_eq hsum ho, List.length_map]

theorem Layout.count_owners (h : Layout size replicas quotas layers)
    (hsum : sumOf quotas = size * replicas) {o : Nat} (ho : o < size) (m : Nat) :
    (owners layers o).count m = (column layers o).count (some m) := by
  rw [h.column_eq hsum ho, List.count_map_of_injective _ _ (Option.some_injective Nat)]

theorem Layout.nodup_owners (h : Layout size replicas quotas layers)
    (hsum : sumOf quotas = size * replicas) {o : Nat} (ho : o < size) :
    (owners layers o).Nodup := by
  rw [List.nodup_iff_count_le_one]
  intro m
  rw [h.count_owners hsum ho]
  exact h.distinct o m

theorem Layout.lt_of_mem_owners (h : Layout size replicas quotas layers)
    (hsum : sumOf quotas = size * replicas) {o m : Nat} (ho : o < size)
    (hm : m ∈ owners layers o) : m < quotas.length := by
  have hmem : some m ∈ column layers o := by
    rw [h.column_eq hsum ho]
    exact List.mem_map_of_mem hm
  obtain ⟨m', hm', heq⟩ := h.owned hsum o ho _ hmem
  rwa [Option.some.inj heq]

/-- What a member holds is counted offset by offset. -/
theorem Layout.holding_eq (h : Layout size replicas quotas layers)
    (hsum : sumOf quotas = size * replicas) (m : Nat) :
    holding layers m = ∑ o ∈ Finset.range size, if m ∈ owners layers o then 1 else 0 := by
  rw [holding_eq_sum_count h.spans]
  refine Finset.sum_congr rfl fun o ho => ?_
  rw [Finset.mem_range] at ho
  rw [← h.count_owners hsum ho, (h.nodup_owners hsum ho).count]

end Owners

/-! ### Where spans start -/

/-- The offsets where a span of some layer starts. -/
def starts (layers : List Layer) : List Nat :=
  sortedDistinct (layers.flatten.map Span.start)

theorem mem_starts {layers : List Layer} {o : Nat} :
    o ∈ starts layers ↔ ∃ layer ∈ layers, ∃ s ∈ layer, s.start = o := by
  unfold starts
  rw [mem_sortedDistinct, List.mem_map]
  constructor
  · rintro ⟨s, hs, rfl⟩
    obtain ⟨layer, hl, hs⟩ := List.mem_flatten.1 hs
    exact ⟨layer, hl, s, hs, rfl⟩
  · rintro ⟨layer, hl, s, hs, rfl⟩
    exact ⟨s, List.mem_flatten.2 ⟨layer, hl, hs⟩, rfl⟩

section Starts

variable {size : Nat} {layers : List Layer}

theorem lt_of_mem_starts (h : ∀ layer ∈ layers, SpansFrom 0 size layer) {o : Nat}
    (ho : o ∈ starts layers) : o < size := by
  obtain ⟨layer, hl, s, hs, rfl⟩ := mem_starts.1 ho
  have := (h layer hl).bounds hs
  omega

/-- The first offset is where the first spans start. -/
theorem exists_starts_eq_cons (h : ∀ layer ∈ layers, SpansFrom 0 size layer) (hne : layers ≠ [])
    (hsize : 0 < size) : ∃ rest, starts layers = 0 :: rest := by
  have hzero : 0 ∈ starts layers := by
    obtain ⟨layer, hl⟩ := List.exists_mem_of_ne_nil layers hne
    have hspans := h layer hl
    cases layer with
    | nil =>
      have : 0 = size := hspans
      omega
    | cons s rest => exact mem_starts.2 ⟨_, hl, s, List.mem_cons_self .., hspans.1⟩
  exact exists_eq_cons_of_le hzero (pairwise_sortedDistinct _) fun _ _ => Nat.zero_le _

/-- The owners do not change where no span starts. -/
theorem owners_eq_of_no_start (h : ∀ layer ∈ layers, SpansFrom 0 size layer) {a b : Nat}
    (hab : a ≤ b) (hb : b < size) (hnone : ∀ o ∈ starts layers, o ≤ b → o ≤ a) :
    owners layers a = owners layers b := by
  have hcolumn : column layers a = column layers b := by
    refine List.map_congr_left fun layer hl => ?_
    exact (h layer hl).ownerAt?_eq_of_no_start (Nat.zero_le a) hab hb fun s hs =>
      hnone s.start (mem_starts.2 ⟨layer, hl, s, hs, rfl⟩)
  unfold owners
  rw [hcolumn]

end Starts

end Layer

namespace PlacementRequest

open Layer

theorem primariesAt_eq_ok {q : PlacementRequest} {o j : Nat} {layers : List Layer}
    {primaries : List Nat} (h : column layers o = primaries.map some) :
    q.primariesAt o j layers = .ok primaries := by
  induction layers generalizing j primaries with
  | nil =>
    rw [List.map_eq_nil_iff.1 h.symm]
    rfl
  | cons layer layers ih =>
    cases primaries with
    | nil => cases h
    | cons m primaries =>
      obtain ⟨howner, hrest⟩ := List.cons.inj h
      have howner : ownerAt? layer o = some m := howner
      rw [primariesAt, howner]
      dsimp only
      rw [ih hrest]
      rfl

/-- The owners that go with some primary ones. -/
def ownersOf (q : PlacementRequest) (plan : ReplicaCounts) (primaries : List Nat) : Owners :=
  ⟨q.names primaries, q.names (secondaries q.members.length plan primaries)⟩

/-- The owners that the layers give a coordinate. -/
def assigned (q : PlacementRequest) (plan : ReplicaCounts) (layers : List Layer) (c : Nat) :
    Owners :=
  q.ownersOf plan (owners layers (c - q.region.first))

/-- The entries that the layers amount to, cut at some offsets. -/
def entriesOf (q : PlacementRequest) (plan : ReplicaCounts) (layers : List Layer)
    (offsets : List Nat) : List Entry :=
  (cutAt q.region.last (offsets.map (q.region.first + ·))).map fun piece =>
    ⟨piece, q.assigned plan layers piece.first⟩

theorem slice?_eq_some {r : Region} {start stop : Nat} (h : start < stop) (hstop : stop ≤ r.size) :
    r.slice? start stop = Region.ofBounds? (r.first + start) (r.first + stop - 1) :=
  if_pos ⟨h, hstop⟩

section Reading

variable {q : PlacementRequest} {plan : ReplicaCounts} {layers : List Layer}

theorem assigned_first_add (o : Nat) :
    q.assigned plan layers (q.region.first + o) = q.ownersOf plan (owners layers o) := by
  unfold assigned
  rw [Nat.add_sub_cancel_left]

theorem entriesOf_singleton {start : Nat} (h : start < q.region.size) :
    q.entriesOf plan layers [start] = ((q.region.slice? start q.region.size).map
      (⟨·, q.ownersOf plan (owners layers start)⟩)).toList := by
  have hend := q.region.first_add_size
  rw [slice?_eq_some h (Nat.le_refl _), hend, Nat.add_sub_cancel,
    Region.ofBounds?_eq_some (by omega) q.region.last_lt]
  unfold entriesOf
  rw [List.map_singleton, cutAt, Region.ofBounds?_eq_some (by omega) q.region.last_lt,
    Option.toList_some, List.map_singleton, assigned_first_add]
  rfl

theorem entriesOf_cons_cons {start next : Nat} (rest : List Nat) (h : start < next)
    (hnext : next < q.region.size) :
    q.entriesOf plan layers (start :: next :: rest) = ((q.region.slice? start next).map
      (⟨·, q.ownersOf plan (owners layers start)⟩)).toList ++
        q.entriesOf plan layers (next :: rest) := by
  have hend := q.region.first_add_size
  have hlast := q.region.last_lt
  have hbounds : q.region.first + start ≤ q.region.first + next - 1 := by omega
  rw [slice?_eq_some h (by omega), Region.ofBounds?_eq_some hbounds (by omega)]
  show (cutAt q.region.last ((q.region.first + start) :: (q.region.first + next) ::
    rest.map (q.region.first + ·))).map
      (fun piece => (⟨piece, q.assigned plan layers piece.first⟩ : Entry)) = _
  rw [cutAt, Region.ofBounds?_eq_some hbounds (by omega), Option.toList_some,
    List.singleton_append, List.map_cons, assigned_first_add]
  rfl

/-- Where every slot has an owner, the layers amount to entries. -/
theorem entriesFrom_eq_ok {start : Nat} {rest : List Nat}
    (hlt : ∀ o ∈ start :: rest, o < q.region.size) (sorted : (start :: rest).Pairwise (· < ·))
    (hcolumn : ∀ o ∈ start :: rest, column layers o = (owners layers o).map some) :
    q.entriesFrom plan layers (start :: rest) = .ok (q.entriesOf plan layers (start :: rest)) := by
  induction rest generalizing start with
  | nil =>
    rw [entriesFrom, primariesAt_eq_ok (hcolumn start (List.mem_cons_self ..)), entriesFrom,
      entriesOf_singleton (hlt start (List.mem_cons_self ..))]
    exact congrArg Except.ok (List.append_nil _)
  | cons next rest ih =>
    have hrest := ih (fun o ho => hlt o (List.mem_cons_of_mem _ ho)) (List.pairwise_cons.1 sorted).2
      fun o ho => hcolumn o (List.mem_cons_of_mem _ ho)
    rw [entriesFrom, primariesAt_eq_ok (hcolumn start (List.mem_cons_self ..)), hrest,
      entriesOf_cons_cons rest ((List.pairwise_cons.1 sorted).1 next (List.mem_cons_self ..))
        (hlt next (by simp))]
    rfl

/-- The entries read off at every start of a span tile the region and stand for the owners that the
layers give each coordinate. -/
theorem entriesOf_starts (h : ∀ layer ∈ layers, SpansFrom 0 q.region.size layer)
    (hne : layers ≠ []) :
    Run.Tiles q.region (q.entriesOf plan layers (starts layers)) ∧
      ∀ c ∈ q.region, Run.valueAt? (q.entriesOf plan layers (starts layers)) c =
        some (q.assigned plan layers c) := by
  have hend := q.region.first_add_size
  obtain ⟨rest, hrest⟩ := exists_starts_eq_cons h hne q.region.size_pos
  have hlt : ∀ o ∈ 0 :: rest, o < q.region.size := by
    rw [← hrest]
    exact fun o ho => lt_of_mem_starts h ho
  have hsorted : (0 :: rest).Pairwise (· < ·) := by
    rw [← hrest]
    exact pairwise_sortedDistinct _
  have hcuts : (0 :: rest).map (q.region.first + ·) =
      q.region.first :: rest.map (q.region.first + ·) := rfl
  have hsorted' : (q.region.first :: rest.map (q.region.first + ·)).Pairwise (· < ·) := by
    rw [← hcuts, List.pairwise_map]
    exact hsorted.imp fun hab => Nat.add_lt_add_left hab _
  have hle : ∀ c ∈ q.region.first :: rest.map (q.region.first + ·), c ≤ q.region.last := by
    rw [← hcuts]
    intro c hc
    obtain ⟨o, ho, rfl⟩ := List.mem_map.1 hc
    have := hlt o ho
    omega
  unfold entriesOf
  rw [hrest, hcuts]
  refine ⟨Run.tilesFrom_cutAt q.region.last_lt hsorted' hle _, fun c hc => ?_⟩
  refine Run.valueAt?_cutAt q.region.last_lt hsorted' hle hc.1 hc.2 ?_
  -- Between two cuts no span starts, so the owners stay the same.
  intro a ha hab hmax
  have hlast := hc.2
  rw [← hcuts] at ha hmax
  obtain ⟨o, -, rfl⟩ := List.mem_map.1 ha
  rw [assigned_first_add]
  unfold assigned
  rw [owners_eq_of_no_start h (a := o) (b := c - q.region.first) (by omega) (by omega)]
  intro o' ho' hle'
  rw [hrest] at ho'
  have := hmax (q.region.first + o') (List.mem_map_of_mem ho') (by omega)
  omega

end Reading

/-! ### Rings -/

/-- Owners as planned: as many different members in either role, and none in both where the plan keeps
the roles apart. -/
structure SoundOwners (q : PlacementRequest) (plan : ReplicaCounts) (o : Owners) : Prop where
  length_primary : o.primary.length = plan.primary
  nodup_primary : o.primary.Nodup
  length_secondary : o.secondary.length = plan.secondary
  nodup_secondary : o.secondary.Nodup
  members : ∀ id ∈ o.every, id ∈ q.memberIds
  disjoint : plan.disjoint = true → ∀ id ∈ o.primary, id ∉ o.secondary

theorem soundOwners_ownersOf {q : PlacementRequest} {plan : ReplicaCounts} {primaries : List Nat}
    (hids : q.memberIds.Nodup) (hplan : PlanFits q.members.length plan)
    (hlength : primaries.length = plan.primary) (hnodup : primaries.Nodup)
    (hlt : ∀ m ∈ primaries, m < q.members.length) :
    SoundOwners q plan (q.ownersOf plan primaries) where
  length_primary := (length_names hlt).trans hlength
  nodup_primary := nodup_names hids hnodup
  length_secondary :=
    (length_names fun _ hm => lt_of_mem_secondaries hm).trans (length_secondaries hplan hlength)
  nodup_secondary := nodup_names hids nodup_secondaries
  members id hid := by
    rcases List.mem_append.1 hid with h | h
    · exact mem_memberIds_of_mem_names h
    · exact mem_memberIds_of_mem_names h
  disjoint hdisjoint id hprimary hsecondary := by
    obtain ⟨m, hm, hid⟩ := mem_names.1 hsecondary
    exact not_mem_primaries_of_mem_secondaries hdisjoint hm ((mem_names_iff hids hid).1 hprimary)

/-- Quotas that fit the members and the region, and use up all units of the plan. -/
structure Settled (q : PlacementRequest) (plan : ReplicaCounts) (quotas : List Nat) : Prop where
  ids : q.memberIds.Nodup
  fits : PlanFits q.members.length plan
  length : quotas.length = q.members.length
  le : ∀ quota ∈ quotas, quota ≤ q.region.size
  sum : sumOf quotas = q.region.size * plan.primary

namespace Settled

variable {q : PlacementRequest} {plan : ReplicaCounts} {quotas : List Nat} {layers : List Layer}

/-- Whatever the earlier ring, the layers of a placement lay out its quotas. -/
theorem layout (h : Settled q plan quotas) (prior : Option Ring) :
    Layout q.region.size plan.primary quotas (q.layers prior plan.primary quotas) :=
  layout_layers h.ids prior h.sum h.le

theorem lt_of_mem_owners (h : Settled q plan quotas)
    (hlayout : Layout q.region.size plan.primary quotas layers) {o : Nat} (ho : o < q.region.size) :
    ∀ m ∈ owners layers o, m < q.members.length := by
  intro m hm
  rw [← h.length]
  exact hlayout.lt_of_mem_owners h.sum ho hm

theorem soundOwners_assigned (h : Settled q plan quotas)
    (hlayout : Layout q.region.size plan.primary quotas layers) {c : Nat} (hc : c ∈ q.region) :
    SoundOwners q plan (q.assigned plan layers c) := by
  have ho := Region.sub_first_lt hc
  exact soundOwners_ownersOf h.ids h.fits (hlayout.length_owners h.sum ho)
    (hlayout.nodup_owners h.sum ho) (h.lt_of_mem_owners hlayout ho)

/-- A layout of settled quotas amounts to a ring of the region that gives each coordinate the owners
of the layers. -/
theorem ringOf_eq_ok (h : Settled q plan quotas)
    (hlayout : Layout q.region.size plan.primary quotas layers) (tolerance : Float) :
    ∃ r, q.ringOf plan layers tolerance = .ok r ∧ r.region = q.region ∧
      ∀ c ∈ q.region, Run.valueAt? r.entries.toList c = some (q.assigned plan layers c) := by
  have hne : layers ≠ [] := by
    rintro rfl
    have hzero := hlayout.length
    have hpos := h.fits.pos
    rw [List.length_nil] at hzero
    omega
  obtain ⟨rest, hrest⟩ := exists_starts_eq_cons hlayout.spans hne q.region.size_pos
  have hentries : q.entriesFrom plan layers (starts layers) =
      .ok (q.entriesOf plan layers (starts layers)) := by
    have hlt : ∀ o ∈ starts layers, o < q.region.size := fun o => lt_of_mem_starts hlayout.spans
    have hsorted : (starts layers).Pairwise (· < ·) := pairwise_sortedDistinct _
    rw [hrest] at hlt hsorted ⊢
    exact entriesFrom_eq_ok hlt hsorted fun o ho => hlayout.column_eq h.sum (hlt o ho)
  obtain ⟨htiles, hvalues⟩ := @entriesOf_starts q plan layers hlayout.spans hne
  obtain ⟨r, hr, hregion, hsame⟩ := Ring.exists_ofEntries? q.node q.policy plan.primary
    plan.secondary tolerance htiles fun c hc owners howners => by
      obtain rfl := Option.some.inj ((hvalues c hc).symm.trans howners)
      have hsound := h.soundOwners_assigned hlayout hc
      refine ⟨fun hnil => ?_, hsound.nodup_primary⟩
      have hcount := hsound.length_primary
      have hpos := h.fits.pos
      rw [hnil, List.length_nil] at hcount
      omega
  refine ⟨r, ?_, hregion, fun c hc => (hsame c).trans (hvalues c hc)⟩
  have hstarts : q.entriesFrom plan layers (sortedDistinct (layers.flatten.map Span.start)) =
      .ok (q.entriesOf plan layers (starts layers)) := hentries
  rw [ringOf, hstarts]
  dsimp only [bind, Except.bind]
  rw [hr]

end Settled

end PlacementRequest

end ReplicaRing
