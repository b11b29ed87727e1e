import ReplicaRing.Proofs.ReplicaMaps
import ReplicaRing.Proofs.Rings

/-!
# Queries and linear scans

Rings and replica maps answer queries by binary search, and add up whole entries where they count
coordinates. A scan of all entries from one end to the other finds the same: the one entry that
holds a coordinate (`Run.InOrder.filter_mem_eq`), the entries that share a coordinate with a window,
whose parts in the window tile what the window and the region have in common (`Run.tiles_clip`), and
every coordinate that lists a node, one by one (`Entry.sizeOwnedBy_eq_card`).

`Entry.Scanned` puts all of this together, and `Ring.queries_scan` says it of every ring and every
replica map. It rests on nothing but that the entries tile the region.
-/

namespace ReplicaRing

/-! ### Regions that share a coordinate -/

namespace Region

variable {a b window part : Region}

theorem overlaps_iff_exists_mem : a.Overlaps b ↔ ∃ c ∈ b, c ∈ a := by
  have ha := a.first_le_last
  have hb := b.first_le_last
  rw [overlaps_iff]
  constructor
  · intro h
    exact ⟨max a.first b.first, mem_iff.2 (by omega), mem_iff.2 (by omega)⟩
  · rintro ⟨c, hcb, hca⟩
    rw [mem_iff] at hcb hca
    omega

theorem inter?_eq_some : a.inter? b = some part ↔
    a.Overlaps b ∧ part.first = max a.first b.first ∧ part.last = min a.last b.last := by
  constructor
  · intro h
    have hle := part.first_le_last
    unfold inter? ofBounds? at h
    split at h
    · obtain rfl := Option.some.inj h
      refine ⟨overlaps_iff.2 ?_, rfl, rfl⟩
      simp only at hle
      omega
    · cases h
  · rintro ⟨hoverlaps, hfirst, hlast⟩
    obtain ⟨piece, hpiece, hpfirst, hplast⟩ := inter?_of_overlaps hoverlaps
    rw [hpiece, eq_of_ends (hpfirst.trans hfirst.symm) (hplast.trans hlast.symm)]

theorem inter?_eq_none : a.inter? b = none ↔ ¬ a.Overlaps b := by
  constructor
  · intro h hoverlaps
    obtain ⟨piece, hpiece, -⟩ := inter?_of_overlaps hoverlaps
    rw [h] at hpiece
    cases hpiece
  · intro h
    cases hpart : a.inter? b with
    | none => rfl
    | some part => exact absurd (inter?_eq_some.1 hpart).1 h

/-- Within a region, a window shows what its part in the region shows. -/
theorem overlaps_part_iff (hab : a.Encloses b) (hpart : a.inter? window = some part) :
    b.Overlaps part ↔ b.Overlaps window := by
  obtain ⟨hoverlaps, hfirst, hlast⟩ := inter?_eq_some.1 hpart
  have hb := b.first_le_last
  have henclosed : a.first ≤ b.first ∧ b.last ≤ a.last := hab
  rw [overlaps_iff] at hoverlaps
  rw [overlaps_iff, overlaps_iff, hfirst, hlast]
  omega

end Region

namespace Run

variable {α : Type} {region window part : Region} {runs : List (Run α)}

/-! ### The run that holds a coordinate -/

/-- Among runs in order, at most one holds a coordinate, the one that is found first. -/
theorem InOrder.filter_mem_eq (h : InOrder runs) (c : Nat) :
    runs.filter (fun run => decide (c ∈ run.region)) =
      (runs.find? fun run => decide (c ∈ run.region)).toList := by
  induction runs with
  | nil => rfl
  | cons run rest ih =>
    obtain ⟨hafter, hrest⟩ := List.pairwise_cons.1 h
    by_cases hc : c ∈ run.region
    · -- All later runs start behind the coordinate.
      have hnone : rest.filter (fun next => decide (c ∈ next.region)) = [] := by
        rw [List.filter_eq_nil_iff]
        intro next hnext
        have hlater := hafter next hnext
        rw [Region.mem_iff] at hc
        simp only [decide_eq_true_eq, Region.mem_iff]
        omega
      rw [List.filter_cons_of_pos (by simpa using hc), List.find?_cons_of_pos (by simpa using hc),
        hnone]
      rfl
    · rw [List.filter_cons_of_neg (by simpa using hc), List.find?_cons_of_neg (by simpa using hc),
        ih hrest]

/-- Among runs in order, binary search finds the only one that holds a coordinate. -/
theorem toList_findAt? {runs : Array (Run α)} (h : InOrder runs.toList) (c : Nat) :
    runs.toList.filter (fun run => decide (c ∈ run.region)) = (findAt? runs c).toList := by
  rw [h.filter_mem_eq, findAt?_eq_find? h]

/-- In a tiling, every coordinate of the region is found and no other. -/
theorem findAt?_eq_none_iff {runs : Array (Run α)} (h : Tiles region runs.toList) (c : Nat) :
    findAt? runs c = none ↔ c ∉ region := by
  have hsome : (valueAt? runs.toList c).isSome ↔ c ∈ region := h.isSome_valueAt? c
  rw [← hsome, ← map_value_findAt? h.inOrder, Option.isSome_map, Option.not_isSome_iff_eq_none]

/-! ### The runs in a window -/

/-- The part of a run in a window. -/
def within? (window : Region) (run : Run α) : Option (Run α) :=
  (run.region.inter? window).map fun part => ⟨part, run.value⟩

/-- The parts of runs in a window. -/
def clip (window : Region) (runs : List (Run α)) : List (Run α) :=
  runs.filterMap (within? window)

/-- Runs of a tiling are cut by a window as by its part in the region. -/
theorem within?_part {run : Run α} (henclosed : region.Encloses run.region)
    (hpart : region.inter? window = some part) (hoverlaps : run.region.Overlaps window) :
    ∃ piece, within? window run = some piece ∧
      piece.region.first = max run.region.first part.first ∧
      piece.region.last = min run.region.last part.last := by
  obtain ⟨-, hfirst, hlast⟩ := Region.inter?_eq_some.1 hpart
  obtain ⟨piece, hpiece, hpfirst, hplast⟩ := Region.inter?_of_overlaps hoverlaps
  have hends : region.first ≤ run.region.first ∧ run.region.last ≤ region.last := henclosed
  refine ⟨⟨piece, run.value⟩, by rw [within?, hpiece]; rfl, ?_, ?_⟩
  · rw [hpfirst, hfirst]
    omega
  · rw [hplast, hlast]
    omega

/-- The parts in a window of the runs that overlap it tile what the window and the region have in
common. -/
theorem tiles_clip (h : Tiles region runs) (hpart : region.inter? window = some part) :
    Tiles part (clip window (runs.filter fun run => decide (run.region.Overlaps window))) := by
  obtain ⟨hoverlaps, hfirst, hlast⟩ := Region.inter?_eq_some.1 hpart
  have henclosed : ∀ run ∈ runs, region.Encloses run.region := fun run hrun => h.bounds hrun
  have hsame : runs.filter (fun run => decide (run.region.Overlaps window)) =
      runs.filter fun run => decide (run.region.Overlaps part) :=
    List.filter_congr fun run hrun => by
      rw [decide_eq_decide, Region.overlaps_part_iff (henclosed run hrun) hpart]
  have hregion := part.first_le_last
  have hwindow : region.first ≤ part.last + 1 ∧ part.last ≤ region.last := by omega
  have hpieces : ∀ run ∈ runs, run.region.Overlaps part → TilesFrom
      (max run.region.first part.first) (min run.region.last part.last)
      (within? window run).toList := by
    intro run hrun hpoverlaps
    rw [Region.overlaps_part_iff (henclosed run hrun) hpart] at hpoverlaps
    obtain ⟨piece, hpiece, hpfirst, hplast⟩ := within?_part (henclosed run hrun) hpart hpoverlaps
    rw [hpiece]
    exact ⟨hpfirst, by rw [hplast]; rfl⟩
  have htiles := h.window part hwindow.1 hwindow.2 hpieces
  rw [show max region.first part.first = part.first by omega] at htiles
  unfold clip
  rw [hsame, List.filterMap_eq_flatMap_toList]
  exact htiles

end Run

/-! ### What an owner holds -/

/-- What a node owns in entries that tile a region is the number of coordinates that list it. -/
theorem Entry.sizeOwnedBy_eq_card {region : Region} {entries : List Entry}
    (h : Run.Tiles region entries) (id : NodeId) (mode : QueryMode) :
    Entry.sizeOwnedBy entries id mode = ((Finset.range spaceSize).filter fun c =>
      id ∈ ((Run.valueAt? entries c).map fun o => o.inMode mode).getD []).card := by
  rw [Entry.sizeOwnedBy_eq_sum h, Finset.card_filter]
  have hlast := region.last_lt
  refine Finset.sum_subset (fun c hc => ?_) fun c _ hc => ?_
  · rw [Finset.mem_Ico] at hc
    exact Finset.mem_range.2 (by omega)
  · -- Outside the region, nobody is listed.
    have hout : ¬ (region.first ≤ c ∧ c ≤ region.last) := by
      rw [Finset.mem_Ico] at hc
      omega
    have hnone : Run.valueAt? entries c = none := by
      rw [← Option.not_isSome_iff_eq_none, h.isSome_valueAt?]
      exact hout
    rw [hnone]
    exact if_neg List.not_mem_nil

/-! ### Queries beside scans -/

/-- Answers to queries about the entries of a region, beside what a scan of all entries finds. -/
structure Entry.Scanned (region : Region) (entries : List Entry) (entryAt? : Nat → Option Entry)
    (ownersAt : Nat → QueryMode → List NodeId) (overlapping : Region → List Entry)
    (sizeOwnedBy : NodeId → QueryMode → Nat) : Prop where
  /-- One entry holds a coordinate of the region, and it is found; no entry holds another one. -/
  holder : ∀ c, entries.filter (fun e => decide (c ∈ e.region)) = (entryAt? c).toList
  outside : ∀ c, entryAt? c = none ↔ c ∉ region
  owners : ∀ c mode, ownersAt c mode =
    (entries.filter fun e => decide (c ∈ e.region)).flatMap fun e => e.owners.inMode mode
  /-- The entries in a window are those that share a coordinate with it, each once and in order. -/
  shared : ∀ window e, e ∈ overlapping window ↔ e ∈ entries ∧ ∃ c ∈ window, c ∈ e.region
  overlap : ∀ window, overlapping window =
    entries.filter fun e => decide (e.region.Overlaps window)
  once : ∀ window, (overlapping window).Pairwise fun a b => a.region.last < b.region.first
  /-- Each of them has a part in the window, and these parts tile what is left of the region. -/
  parts : ∀ window, ∀ e ∈ overlapping window, (e.region.inter? window).isSome
  pieces : ∀ window part, region.inter? window = some part →
    Run.Tiles part (Run.clip window (overlapping window))
  apart : ∀ window, region.inter? window = none → overlapping window = []
  /-- A node owns as much as there are coordinates that list it. -/
  size : ∀ id mode, sizeOwnedBy id mode =
    ((Finset.range spaceSize).filter fun c => id ∈ ownersAt c mode).card

/-- Binary search answers as a scan does, if the entries tile the region. -/
theorem Entry.scanned_of_tiles {region : Region} {entries : Array Entry}
    (h : Run.Tiles region entries.toList) :
    Entry.Scanned region entries.toList (Run.findAt? entries)
      (fun c mode => ((Run.findAt? entries c).map fun e => e.owners.inMode mode).getD [])
      (Run.overlapping entries) (Entry.sizeOwnedBy entries.toList) where
  holder := Run.toList_findAt? h.inOrder
  outside := Run.findAt?_eq_none_iff h
  owners c mode := by
    rw [Run.toList_findAt? h.inOrder]
    cases Run.findAt? entries c <;> simp
  shared window e := by
    rw [Run.overlapping_eq_filter h, List.mem_filter, decide_eq_true_eq,
      Region.overlaps_iff_exists_mem]
  overlap := Run.overlapping_eq_filter h
  once window := by
    rw [Run.overlapping_eq_filter h]
    exact h.pairwise.filter _
  parts window e he := by
    rw [Run.overlapping_eq_filter h, List.mem_filter, decide_eq_true_eq] at he
    obtain ⟨part, hpart, -⟩ := Region.inter?_of_overlaps he.2
    exact Option.isSome_iff_exists.2 ⟨part, hpart⟩
  pieces window part hpart := by
    rw [Run.overlapping_eq_filter h]
    exact Run.tiles_clip h hpart
  apart window hnone := by
    rw [Run.overlapping_eq_filter h, List.filter_eq_nil_iff]
    intro e he
    rw [Region.inter?_eq_none] at hnone
    have hbounds := h.bounds he
    simp only [decide_eq_true_eq, Region.overlaps_iff] at hnone ⊢
    omega
  size id mode := by
    rw [Entry.sizeOwnedBy_eq_card h]
    refine congrArg Finset.card (Finset.filter_congr fun c _ => ?_)
    rw [← Run.map_value_findAt? h.inOrder, Option.map_map]
    rfl

/-- Every ring and every replica map answers queries about coordinates, windows and nodes, in its
region or not, as a scan of its entries from one end to the other does. -/
theorem Ring.queries_scan (r : Ring) (m : ReplicaMap) :
    Entry.Scanned r.region r.entries.toList r.entryAt? r.ownersAt r.overlapping r.sizeOwnedBy ∧
      Entry.Scanned m.region m.entries.toList m.entryAt? m.ownersAt (Run.overlapping m.entries)
        m.sizeOwnedBy :=
  ⟨Entry.scanned_of_tiles r.tiles, Entry.scanned_of_tiles m.tiles⟩

end ReplicaRing
