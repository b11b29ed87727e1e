import ReplicaRing.Proofs.Layers.Layout
import ReplicaRing.Proofs.Rings

/-!
# Layers of an earlier ring

Layer `j` of a ring stands for the `j`-th primary owner of each coordinate (`ofEntries_spec`). The
columns of all the layers are the lists of primary owners with the names replaced by places in the
list of members (`column_layersOf`), so a member holds in the layers what it owns in the ring
(`holding_layersOf`), and no offset twice (`distinct_layersOf`).
-/

namespace ReplicaRing

open PlacementRequest (ownerAt?)

/-- In a list without repeats, a value is found where it stands. -/
theorem idxOf?_eq_some_iff_getElem? {xs : List NodeId} (h : xs.Nodup) {x : NodeId} {i : Nat} :
    xs.idxOf? x = some i ↔ xs[i]? = some x := by
  rw [List.idxOf?_eq_some_iff, List.getElem?_eq_some_iff]
  constructor
  · rintro ⟨hi, hx, -⟩
    exact ⟨hi, hx⟩
  · rintro ⟨hi, rfl⟩
    refine ⟨hi, rfl, fun j hj heq => ?_⟩
    have := (h.getElem_inj_iff (i := j) (j := i)).1 heq
    omega

namespace Layer

/-- The span of an entry in the layer of the `j`-th owners, counted from `origin`. -/
def spanOf (members : List NodeId) (origin j : Nat) (e : Entry) : Span :=
  ⟨e.region.first - origin, e.region.size, (e.owners.primary[j]?).bind (members.idxOf? ·)⟩

theorem ofEntries_eq_tidy (members : List NodeId) (origin : Nat) (entries : List Entry) (j : Nat) :
    ofEntries members origin entries j = tidy (entries.map (spanOf members origin j)) :=
  rfl

section SpanOf

variable {origin first last : Nat} {entries : List Entry}

theorem stop_spanOf (members : List NodeId) (j : Nat) {e : Entry} (h : origin ≤ e.region.first) :
    (spanOf members origin j e).stop = e.region.last + 1 - origin := by
  have hsize := e.region.first_add_size
  dsimp only [Span.stop, spanOf]
  omega

theorem spansFrom_map_spanOf (members : List NodeId) (j : Nat) (h : Run.TilesFrom first last entries)
    (horigin : origin ≤ first) :
    SpansFrom (first - origin) (last + 1 - origin) (entries.map (spanOf members origin j)) := by
  induction entries generalizing first with
  | nil =>
    obtain rfl : first = last + 1 := h
    rfl
  | cons e rest ih =>
    obtain ⟨rfl, hrest⟩ := h
    have hle := e.region.first_le_last
    refine ⟨rfl, e.region.size_pos, ?_⟩
    rw [stop_spanOf members j horigin]
    exact ih hrest (by omega)

/-- The layer lists the `j`-th owner of every coordinate, by its place among the members. -/
theorem ownerAt?_map_spanOf (members : List NodeId) (j : Nat) (h : Run.TilesFrom first last entries)
    (horigin : origin ≤ first) (o : Nat) :
    ownerAt? (entries.map (spanOf members origin j)) o =
      ((Run.valueAt? entries (origin + o)).bind fun owners => owners.primary[j]?).bind
        (members.idxOf? ·) := by
  induction entries generalizing first with
  | nil => rfl
  | cons e rest ih =>
    obtain ⟨rfl, hrest⟩ := h
    have hle := e.region.first_le_last
    have hstart : (spanOf members origin j e).start = e.region.first - origin := rfl
    rw [List.map_cons, PlacementRequest.ownerAt?_cons, stop_spanOf members j horigin, hstart,
      ih hrest (by omega), Run.valueAt?_cons]
    by_cases hmem : origin + o ∈ e.region
    · have hbounds := Region.mem_iff.1 hmem
      rw [if_pos hmem, if_neg (by omega), if_pos (by omega)]
      rfl
    · rw [if_neg hmem]
      rw [Region.mem_iff] at hmem
      split
      · rfl
      · -- The offset lies before this entry, and so before all of them.
        have hnone : Run.valueAt? rest (origin + o) = none := by
          rw [← Option.not_isSome_iff_eq_none, hrest.isSome_valueAt?]
          omega
        rw [if_neg (by omega), hnone]
        rfl

end SpanOf

theorem ofEntries_spec (members : List NodeId) {origin first last : Nat} {entries : List Entry}
    (h : Run.TilesFrom first last entries) (horigin : origin ≤ first) (j : Nat) :
    SpansFrom (first - origin) (last + 1 - origin) (ofEntries members origin entries j) ∧
      ∀ o, ownerAt? (ofEntries members origin entries j) o =
        ((Run.valueAt? entries (origin + o)).bind fun owners => owners.primary[j]?).bind
          (members.idxOf? ·) := by
  rw [ofEntries_eq_tidy]
  obtain ⟨htidy, hsame⟩ := tidy_spec (spansFrom_map_spanOf members j h horigin)
  exact ⟨htidy, fun o => (hsame o).trans (ownerAt?_map_spanOf members j h horigin o)⟩

/-- The layers of a ring, with its owners named by their places among some members. -/
def layersOf (members : List NodeId) (r : Ring) (replicas : Nat) : List Layer :=
  (List.range replicas).map (ofEntries members r.region.first r.entries.toList)

section LayersOf

variable {members : List NodeId} {r : Ring} {replicas : Nat}

theorem length_layersOf : (layersOf members r replicas).length = replicas := by
  simp [layersOf]

theorem spansFrom_layersOf :
    ∀ layer ∈ layersOf members r replicas, SpansFrom 0 r.region.size layer := by
  intro layer hl
  obtain ⟨j, -, rfl⟩ := List.mem_map.1 hl
  have hspans := (ofEntries_spec members r.tiles (Nat.le_refl _) j).1
  have hsize : r.region.last + 1 - r.region.first = r.region.size := by
    have := r.region.first_add_size
    omega
  rwa [Nat.sub_self, hsize] at hspans

/-- The owners of an offset in the layers are the primary owners of the coordinate. -/
theorem column_layersOf (h : ∀ e ∈ r.entries.toList, e.owners.primary.length = replicas) {o : Nat}
    (ho : o < r.region.size) :
    column (layersOf members r replicas) o =
      (r.ownersAt (r.region.first + o) .primary).map (members.idxOf? ·) := by
  obtain ⟨e, he, -, howners⟩ := r.exists_entry (Region.first_add_mem.2 ho)
  rw [r.ownersAt_of_valueAt? howners, Owners.inMode_primary]
  unfold column layersOf
  rw [List.map_map]
  refine List.ext_getElem (by simp [h e he]) fun j hj hj' => ?_
  simp only [List.getElem_map, Function.comp_apply, List.getElem_range]
  rw [(ofEntries_spec members r.tiles (Nat.le_refl _) j).2, howners, Option.bind_some,
    List.getElem?_eq_getElem (by simpa using hj'), Option.bind_some]

/-- A member stands in the column of an offset as often as in the list of primary owners. -/
theorem count_column_layersOf (hmembers : members.Nodup)
    (h : ∀ e ∈ r.entries.toList, e.owners.primary.length = replicas) {o : Nat}
    (ho : o < r.region.size) (m : Nat) :
    (column (layersOf members r replicas) o).count (some m) =
      if ∃ id ∈ r.ownersAt (r.region.first + o) .primary, members[m]? = some id then 1 else 0 := by
  have hnodup := r.nodup_ownersAt (r.region.first + o)
  rw [column_layersOf h ho, List.count_eq_countP, List.countP_map]
  cases hm : members[m]? with
  | none =>
    rw [if_neg (by simp), List.countP_eq_zero]
    intro id _ hid
    rw [Function.comp_apply, beq_iff_eq, idxOf?_eq_some_iff_getElem? hmembers, hm] at hid
    cases hid
  | some id =>
    have hcount : (r.ownersAt (r.region.first + o) .primary).countP
        ((· == some m) ∘ (members.idxOf? ·)) =
          (r.ownersAt (r.region.first + o) .primary).count id := by
      rw [List.count_eq_countP]
      refine List.countP_congr fun id' _ => ?_
      rw [Function.comp_apply, beq_iff_eq, beq_iff_eq, idxOf?_eq_some_iff_getElem? hmembers, hm,
        Option.some_inj]
      exact eq_comm
    rw [hcount, hnodup.count]
    simp

theorem distinct_layersOf (hmembers : members.Nodup)
    (h : ∀ e ∈ r.entries.toList, e.owners.primary.length = replicas) :
    Distinct (layersOf members r replicas) := by
  refine distinct_of_lt spansFrom_layersOf fun o ho m => ?_
  rw [count_column_layersOf hmembers h ho]
  split <;> omega

/-- A member holds in the layers of a ring what it owns in the ring. -/
theorem holding_layersOf (hmembers : members.Nodup)
    (h : ∀ e ∈ r.entries.toList, e.owners.primary.length = replicas) {m : Nat} {id : NodeId}
    (hm : members[m]? = some id) :
    holding (layersOf members r replicas) m = r.sizeOwnedBy id .primary := by
  rw [holding_eq_sum_count spansFrom_layersOf, r.sizeOwnedBy_eq_sum]
  refine Finset.sum_congr rfl fun o ho => ?_
  rw [count_column_layersOf hmembers h (Finset.mem_range.1 ho), hm]
  simp

/-- The owners in the layers of a ring are places in the list of members. -/
theorem lt_of_mem_column_layersOf (hmembers : members.Nodup)
    (h : ∀ e ∈ r.entries.toList, e.owners.primary.length = replicas) {o : Nat}
    (ho : o < r.region.size) {m : Nat} (hm : some m ∈ column (layersOf members r replicas) o) :
    m < members.length := by
  rw [column_layersOf h ho] at hm
  obtain ⟨id, -, hid⟩ := List.mem_map.1 hm
  exact (List.getElem?_eq_some_iff.1 ((idxOf?_eq_some_iff_getElem? hmembers).1 hid)).1

end LayersOf

end Layer

/-! ### The layers of a placement -/

namespace PlacementRequest

open Layer

/-- The layers of an earlier ring are taken when it has the region and the number of primary owners
that are asked for. -/
theorem layersOfPrior?_eq_some {q : PlacementRequest} {prior : Ring} {replicas : Nat}
    {layers : List Layer} :
    q.layersOfPrior? prior replicas = some layers ↔
      (prior.region = q.region ∧ prior.primaryReplicas = replicas ∧
        ∀ e ∈ prior.entries.toList, e.owners.primary.length = replicas) ∧
      layers = layersOf q.memberIds prior replicas := by
  unfold layersOfPrior? layersOf
  simp only [List.all_eq_true, decide_eq_true_eq]
  constructor
  · intro h
    split at h
    · rename_i hfits
      refine ⟨hfits, ?_⟩
      rw [hfits.1]
      exact (Option.some.inj h).symm
    · cases h
  · rintro ⟨hfits, rfl⟩
    rw [if_pos hfits, hfits.1]

/-- Whatever the earlier ring, the layers of a placement lay out its quotas. -/
theorem layout_layers {q : PlacementRequest} (hids : q.memberIds.Nodup) (prior : Option Ring)
    {replicas : Nat} {quotas : List Nat} (hsum : sumOf quotas = q.region.size * replicas)
    (hle : ∀ quota ∈ quotas, quota ≤ q.region.size) :
    Layout q.region.size replicas quotas (q.layers prior replicas quotas) := by
  unfold layers
  cases hadjusted : prior.bind fun ring => q.adjustedLayers? ring replicas quotas with
  | none => exact layout_fresh hsum hle
  | some after =>
    obtain ⟨ring, -, hring⟩ := Option.bind_eq_some_iff.1 hadjusted
    obtain ⟨layers, hlayers, hfill⟩ := Option.bind_eq_some_iff.1 hring
    obtain ⟨⟨hregion, -, hlength⟩, rfl⟩ := layersOfPrior?_eq_some.1 hlayers
    have hlayout := layout_of_fill? spansFrom_layersOf (distinct_layersOf hids hlength) hfill
    rwa [length_layersOf, hregion] at hlayout

end PlacementRequest

end ReplicaRing
