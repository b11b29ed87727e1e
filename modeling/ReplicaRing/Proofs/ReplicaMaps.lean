import ReplicaRing.Proofs.Lookup

/-!
# Windows, superposition and replica maps

A tiling seen through a window is put together from what stands in the window for each run that
overlaps it (`Run.TilesFrom.window`).

Several lists of entries for one region are superposed by cutting the region wherever one of them
starts a new entry. The result tiles the region, whether or not the lists do (`superpose_tiles`).
Since the last cut before it, no list has changed up to a coordinate that it holds, so at a coordinate
that all of them hold the result stands for the union of their owners (`valueAt?_superpose`).
-/

namespace ReplicaRing

/-! ### Windows -/

/-- Regions that overlap share the coordinates between the later start and the earlier end. -/
theorem Region.inter?_of_overlaps {a b : Region} (h : a.Overlaps b) :
    ∃ piece, a.inter? b = some piece ∧ piece.first = max a.first b.first ∧
      piece.last = min a.last b.last := by
  have ha := a.first_le_last
  have hb := b.first_le_last
  have hlast := a.last_lt
  rw [Region.overlaps_iff] at h
  have hle : max a.first b.first ≤ min a.last b.last := by omega
  exact ⟨_, Region.ofBounds?_eq_some hle (by omega), rfl, rfl⟩

theorem Region.Encloses.mem {a b : Region} (h : a.Encloses b) {c : Nat} (hc : c ∈ b) : c ∈ a :=
  ⟨Nat.le_trans h.1 hc.1, Nat.le_trans hc.2 h.2⟩

theorem Region.Encloses.trans {a b c : Region} (hab : a.Encloses b) (hbc : b.Encloses c) :
    a.Encloses c :=
  ⟨Nat.le_trans hab.1 hbc.1, Nat.le_trans hbc.2 hab.2⟩

/-- The coordinates that two regions share lie in both. -/
theorem Region.encloses_of_inter? {a b piece : Region} (h : a.inter? b = some piece) :
    a.Encloses piece ∧ b.Encloses piece := by
  unfold Region.inter? Region.ofBounds? at h
  split at h
  · obtain rfl := Option.some.inj h
    exact ⟨⟨Nat.le_max_left _ _, Nat.min_le_left _ _⟩, ⟨Nat.le_max_right _ _, Nat.min_le_right _ _⟩⟩
  · cases h

namespace Run

variable {α : Type}

/-- Up to a coordinate that a run holds, the value does not change between two starts of runs. -/
theorem InOrder.valueAt?_eq_of_no_start {runs : List (Run α)} (h : InOrder runs) {a b : Nat}
    (hab : a ≤ b) (hsome : (valueAt? runs b).isSome)
    (hnone : ∀ run ∈ runs, run.region.first ≤ b → run.region.first ≤ a) :
    valueAt? runs a = valueAt? runs b := by
  obtain ⟨v, hv⟩ := Option.isSome_iff_exists.1 hsome
  obtain ⟨run, hrun, hmem, rfl⟩ := mem_of_valueAt?_eq_some hv
  rw [Region.mem_iff] at hmem
  have hstart := hnone run hrun hmem.1
  rw [hv, h.valueAt?_of_mem hrun (Region.mem_iff.2 (by omega))]

theorem TilesFrom.valueAt?_eq_of_no_start {first last : Nat} {runs : List (Run α)}
    (h : TilesFrom first last runs) {a b : Nat} (hfirst : first ≤ a) (hab : a ≤ b) (hb : b ≤ last)
    (hnone : ∀ run ∈ runs, run.region.first ≤ b → run.region.first ≤ a) :
    valueAt? runs a = valueAt? runs b :=
  h.inOrder.valueAt?_eq_of_no_start hab
    ((h.isSome_valueAt? b).2 ⟨Nat.le_trans hfirst hab, hb⟩) hnone

theorem filter_overlaps_eq_nil {first last : Nat} {runs : List (Run α)}
    (h : TilesFrom first last runs) {window : Region} (hwindow : window.last < first) :
    runs.filter (fun run => decide (run.region.Overlaps window)) = [] := by
  rw [List.filter_eq_nil_iff]
  intro run hrun
  have := (h.bounds hrun).1
  simp only [decide_eq_true_eq, Region.overlaps_iff]
  omega

/-- What tiles the part of each run in a window tiles the part of all runs in the window. -/
theorem TilesFrom.window {β : Type} {first last : Nat} {runs : List (Run α)}
    (h : TilesFrom first last runs) (window : Region) (hfirst : first ≤ window.last + 1)
    (hlast : window.last ≤ last) {within : Run α → List (Run β)}
    (hwithin : ∀ run ∈ runs, run.region.Overlaps window → TilesFrom
      (max run.region.first window.first) (min run.region.last window.last) (within run)) :
    TilesFrom (max first window.first) window.last
      ((runs.filter fun run => decide (run.region.Overlaps window)).flatMap within) := by
  have hwindow := window.first_le_last
  induction runs generalizing first with
  | nil =>
    have hend : first = last + 1 := h
    show max first window.first = window.last + 1
    omega
  | cons run rest ih =>
    have hstart := h.1
    have hrun := run.region.first_le_last
    by_cases hoverlaps : run.region.Overlaps window
    · rw [List.filter_cons_of_pos (by simpa using hoverlaps), List.flatMap_cons]
      have hhead := hwithin run (List.mem_cons_self ..) hoverlaps
      rw [hstart] at hhead
      rw [Region.overlaps_iff] at hoverlaps
      by_cases hinside : run.region.last < window.last
      · rw [Nat.min_eq_left (Nat.le_of_lt hinside)] at hhead
        have htail := ih h.2 (by omega) fun run hrun => hwithin run (List.mem_cons_of_mem _ hrun)
        rw [show max (run.region.last + 1) window.first = run.region.last + 1 by omega] at htail
        exact hhead.append htail
      · -- The window ends in this run.
        rw [filter_overlaps_eq_nil h.2 (by omega), List.flatMap_nil, List.append_nil]
        rwa [Nat.min_eq_right (by omega)] at hhead
    · rw [List.filter_cons_of_neg (by simpa using hoverlaps)]
      rw [Region.overlaps_iff] at hoverlaps
      by_cases hbehind : window.last < run.region.first
      · -- The runs start right after the window.
        rw [filter_overlaps_eq_nil h.2 (by omega), List.flatMap_nil]
        show max first window.first = window.last + 1
        omega
      · have htail := ih h.2 (by omega) fun run hrun => hwithin run (List.mem_cons_of_mem _ hrun)
        rwa [show max (run.region.last + 1) window.first = max first window.first by omega] at htail

end Run

/-! ### Superposing -/

/-- The owners of a coordinate, united over several lists of entries. -/
def unionAt (lists : List (List Entry)) (c : Nat) : Owners :=
  Owners.union (lists.filterMap (Run.valueAt? · c))

/-- The places where a superposition may change: the start of its region, and every start of an entry
in the region. -/
theorem exists_superposeStarts (region : Region) (lists : List (List Entry)) :
    ∃ rest, sortedDistinct (region.first :: lists.flatMap fun entries =>
        (entries.map fun e => e.region.first).filter fun c => decide (c ∈ region)) =
          region.first :: rest ∧
      (region.first :: rest).Pairwise (· < ·) ∧ (∀ c ∈ region.first :: rest, c ∈ region) ∧
      ∀ entries ∈ lists, ∀ e ∈ entries, e.region.first ∈ region →
        e.region.first ∈ region.first :: rest := by
  generalize hstarts : sortedDistinct (region.first :: lists.flatMap fun entries =>
    (entries.map fun e => e.region.first).filter fun c => decide (c ∈ region)) = starts
  have hmem : ∀ c, c ∈ starts ↔ c = region.first ∨
      ∃ entries ∈ lists, ∃ e ∈ entries, e.region.first = c ∧ c ∈ region := by
    intro c
    rw [← hstarts, mem_sortedDistinct, List.mem_cons, List.mem_flatMap]
    simp only [List.mem_filter, List.mem_map, decide_eq_true_eq]
    grind
  have hsorted : starts.Pairwise (· < ·) := by
    rw [← hstarts]
    exact pairwise_sortedDistinct _
  have hregion : ∀ c ∈ starts, c ∈ region := by
    intro c hc
    rcases (hmem c).1 hc with rfl | ⟨_, _, _, _, _, hc⟩
    · exact ⟨Nat.le_refl _, region.first_le_last⟩
    · exact hc
  obtain ⟨rest, rfl⟩ := exists_eq_cons_of_le ((hmem region.first).2 (Or.inl rfl)) hsorted
    fun c hc => (hregion c hc).1
  exact ⟨rest, rfl, hsorted, hregion, fun entries hentries e he hin =>
    (hmem _).2 (Or.inr ⟨entries, hentries, e, he, rfl, hin⟩)⟩

/-- A superposition tiles its region, with whatever owners. -/
theorem superpose_tiles (region : Region) (lists : List (List Entry)) :
    Run.Tiles region (superpose region lists) := by
  obtain ⟨rest, hstarts, hsorted, hregion, -⟩ := exists_superposeStarts region lists
  unfold superpose
  dsimp only
  rw [hstarts]
  exact (Run.tilesFrom_cutAt region.last_lt hsorted (fun c hc => (hregion c hc).2) _).canonical

/-- Superposed lists of entries in a region give a coordinate that all of them hold the union of the
owners that they gave it. -/
theorem valueAt?_superpose {region : Region} {lists : List (List Entry)}
    (hinOrder : ∀ entries ∈ lists, Run.InOrder entries)
    (hwithin : ∀ entries ∈ lists, ∀ e ∈ entries, region.Encloses e.region) {c : Nat}
    (hc : c ∈ region) (hall : ∀ entries ∈ lists, (Run.valueAt? entries c).isSome) :
    Run.valueAt? (superpose region lists) c = some (unionAt lists c) := by
  have hfind : ∀ c, ((lists.map List.toArray).filterMap (Run.findAt? · c)).map Run.value =
      lists.filterMap (Run.valueAt? · c) := by
    intro c
    rw [List.map_filterMap, List.filterMap_map]
    exact List.filterMap_congr fun entries hmem => Run.map_value_findAt? (hinOrder entries hmem) c
  obtain ⟨rest, hstarts, hsorted, hregion, hstart⟩ := exists_superposeStarts region lists
  have hle : ∀ c ∈ region.first :: rest, c ≤ region.last := fun c hc => (hregion c hc).2
  have htiles := Run.tilesFrom_cutAt region.last_lt hsorted hle fun piece => unionAt lists piece.first
  unfold superpose
  dsimp only
  rw [hstarts]
  simp only [hfind]
  show Run.valueAt? (Run.canonical ((cutAt region.last (region.first :: rest)).map fun piece =>
    ⟨piece, unionAt lists piece.first⟩)) c = _
  rw [htiles.valueAt?_canonical]
  refine Run.valueAt?_cutAt region.last_lt hsorted hle hc.1 hc.2 fun a ha hac hmax => ?_
  -- An entry that starts up to the coordinate starts at a cut.
  have hnone : ∀ entries ∈ lists, ∀ e ∈ entries, e.region.first ≤ c → e.region.first ≤ a := by
    intro entries hentries e he hfirst
    have hbounds := (hwithin entries hentries e he).1
    refine hmax _ (hstart entries hentries e he ?_) hfirst
    exact Region.mem_iff.2 ⟨hbounds, Nat.le_trans hfirst hc.2⟩
  unfold unionAt
  rw [List.filterMap_congr fun entries hmem => (hinOrder entries hmem).valueAt?_eq_of_no_start hac
    (hall entries hmem) (hnone entries hmem)]

/-! ### Replica maps -/

namespace ReplicaMap

theorem entries_of_ofEntries?_eq_ok {region : Region} {entries : List Entry} {m : ReplicaMap}
    (h : ofEntries? region entries = .ok m) : m.entries.toList = Run.canonical entries := by
  unfold ofEntries? at h
  split at h
  · cases h
  · obtain rfl := Except.ok.inj h
    rfl

theorem ownersAt_of_valueAt? {m : ReplicaMap} {c : Nat} {owners : Owners}
    (h : Run.valueAt? m.entries.toList c = some owners) (mode : QueryMode) :
    m.ownersAt c mode = owners.inMode mode := by
  have hvalue := m.map_value_entryAt? c
  rw [h] at hvalue
  obtain ⟨e, he, rfl⟩ := Option.map_eq_some_iff.1 hvalue
  unfold ownersAt
  rw [he]
  rfl

end ReplicaMap

end ReplicaRing
