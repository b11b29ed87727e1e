import ReplicaRing.Proofs.Runs
import ReplicaRing.Ring
import ReplicaRing.ReplicaMap
import Mathlib.Data.List.TakeWhile

/-!
# Looking up and cutting

Binary search in an array whose passing elements come first splits it where a linear scan does
(`drop_firstFailing`), so the run that `Run.findAt?` finds among runs in order is the first one that
holds the coordinate (`findAt?_eq_find?`), and the runs of a tiling that overlap a window are those
that share a coordinate with it (`overlapping_eq_filter`).

`cutAt` cuts a region at a list of places. The pieces with the values of a function at their first
coordinates stand for it where it has not changed since the last of these places
(`valueAt?_cutAt`).
-/

namespace ReplicaRing

/-! ### Binary search -/

section Search

variable {α : Type}

/-- Binary search drops what a linear scan drops. -/
theorem drop_firstFailing {p : α → Bool} {xs : Array α}
    (sorted : xs.toList.Pairwise fun a b => p b = true → p a = true) :
    xs.toList.drop (firstFailing p xs) = xs.toList.dropWhile p := by
  have hsorted : ∀ i j : Nat, i ≤ j → xs[j]?.any p = true → xs[i]?.any p = true := by
    intro i j hij hj
    rcases Nat.eq_or_lt_of_le hij with rfl | hlt
    · exact hj
    · obtain ⟨y, hy, hpy⟩ := (Option.any_eq_true _ _).1 hj
      obtain ⟨hjlt, rfl⟩ := Array.getElem?_eq_some_iff.1 hy
      have hi : i < xs.size := Nat.lt_trans hlt hjlt
      rw [Array.getElem?_eq_getElem hi]
      exact List.pairwise_iff_getElem.1 sorted i j hi hjlt hlt hpy
  obtain ⟨hbefore, hafter⟩ := firstFailing_spec hsorted
  generalize firstFailing p xs = k at hbefore hafter ⊢
  have htake : ∀ a ∈ xs.toList.take k, p a = true := by
    intro a ha
    obtain ⟨i, hi, rfl⟩ := List.mem_iff_getElem.1 ha
    rw [List.length_take] at hi
    have := hbefore i (by omega)
    rw [Array.getElem?_eq_getElem (by simpa using (show i < xs.toList.length by omega))] at this
    simpa using this
  have hdrop : (xs.toList.drop k).dropWhile p = xs.toList.drop k := by
    rw [List.dropWhile_eq_self_iff]
    intro hl
    rw [List.length_drop, Array.length_toList] at hl
    have := hafter k (Nat.le_refl k)
    rw [Array.getElem?_eq_getElem (by omega)] at this
    simpa using this
  calc xs.toList.drop k = (xs.toList.drop k).dropWhile p := hdrop.symm
    _ = (xs.toList.take k ++ xs.toList.drop k).dropWhile p :=
        (List.dropWhile_append_of_pos htake).symm
    _ = xs.toList.dropWhile p := by rw [List.take_append_drop]

end Search

namespace Run

variable {α : Type}

/-- Among runs in order, those that end before a coordinate come first. -/
theorem InOrder.pairwise_last_lt {runs : List (Run α)} (h : InOrder runs) (c : Nat) :
    runs.Pairwise fun a b =>
      decide (b.region.last < c) = true → decide (a.region.last < c) = true := by
  refine h.imp fun {a b} hab hb => ?_
  have := b.region.first_le_last
  simp only [decide_eq_true_eq] at hb ⊢
  omega

/-- Looking a coordinate up among runs in order finds the first run that holds it. -/
theorem findAt?_eq_find? {runs : Array (Run α)} (h : InOrder runs.toList) (c : Nat) :
    findAt? runs c = runs.toList.find? fun run => decide (c ∈ run.region) := by
  have hdrop := drop_firstFailing (h.pairwise_last_lt c)
  unfold findAt?
  rw [← Array.getElem?_toList, ← List.head?_drop, hdrop]
  generalize runs.toList = l at h
  clear hdrop
  induction l with
  | nil => rfl
  | cons run rest ih =>
    obtain ⟨hafter, hrest⟩ := List.pairwise_cons.1 h
    rw [List.find?_cons]
    by_cases hlast : run.region.last < c
    · -- The run ends before the coordinate, and both sides pass it over.
      have hmem : c ∉ run.region := by
        rw [Region.mem_iff]
        omega
      rw [List.dropWhile_cons_of_pos (by simpa using hlast), ih hrest]
      simp [hmem]
    · rw [List.dropWhile_cons_of_neg (by simpa using hlast), List.head?_cons]
      by_cases hmem : c ∈ run.region
      · simp [hmem]
      · -- The coordinate lies before this run, and so before all later ones.
        have hnone : rest.find? (fun run => decide (c ∈ run.region)) = none := by
          refine List.find?_eq_none.2 fun next hnext => ?_
          have hlater := hafter next hnext
          have hle := run.region.first_le_last
          rw [Region.mem_iff] at hmem
          simp only [Region.mem_iff, decide_eq_true_eq]
          omega
        simp [hmem, hnone]

theorem map_value_findAt? {runs : Array (Run α)} (h : InOrder runs.toList) (c : Nat) :
    (findAt? runs c).map Run.value = valueAt? runs.toList c := by
  rw [findAt?_eq_find? h]
  rfl

/-- The runs of a tiling that overlap a window are those that share a coordinate with it. -/
theorem overlapping_eq_filter {first last : Nat} {runs : Array (Run α)}
    (h : TilesFrom first last runs.toList) (window : Region) :
    overlapping runs window = runs.toList.filter fun run => decide (run.region.Overlaps window) := by
  unfold overlapping
  dsimp only
  rw [drop_firstFailing (h.inOrder.pairwise_last_lt window.first)]
  generalize runs.toList = l at h
  induction l generalizing first with
  | nil => rfl
  | cons run rest ih =>
    by_cases hlast : run.region.last < window.first
    · rw [List.dropWhile_cons_of_pos (by simpa using hlast), ih h.2, List.filter_cons_of_neg]
      simp only [decide_eq_true_eq, Region.overlaps_iff]
      omega
    · rw [List.dropWhile_cons_of_neg (by simpa using hlast)]
      -- Nothing is passed over from here on: every later run ends later still.
      have hrest : rest.dropWhile (fun run => decide (run.region.last < window.first)) = rest := by
        rw [List.dropWhile_eq_self_iff]
        intro hl
        have hnext := (h.2.bounds (List.getElem_mem hl)).1
        have := rest[0].region.first_le_last
        have := run.region.first_le_last
        simp only [decide_eq_true_eq]
        omega
      have hih := ih h.2
      rw [hrest] at hih
      by_cases hfirst : run.region.first ≤ window.last
      · rw [List.takeWhile_cons_of_pos (by simpa using hfirst), hih, List.filter_cons_of_pos]
        simp only [decide_eq_true_eq, Region.overlaps_iff]
        omega
      · rw [List.takeWhile_cons_of_neg (by simpa using hfirst), List.filter_cons_of_neg, eq_comm,
          List.filter_eq_nil_iff]
        · intro next hnext
          have hlater := (h.2.bounds hnext).1
          have := run.region.first_le_last
          simp only [decide_eq_true_eq, Region.overlaps_iff]
          omega
        · simp [Region.overlaps_iff, hfirst]

end Run

/-- What a ring assigns to a coordinate is what its entries stand for. -/
theorem Ring.map_value_entryAt? (r : Ring) (c : Nat) :
    (r.entryAt? c).map Run.value = Run.valueAt? r.entries.toList c :=
  Run.map_value_findAt? r.tiles.inOrder c

/-- What a replica map assigns to a coordinate is what its entries stand for. -/
theorem ReplicaMap.map_value_entryAt? (m : ReplicaMap) (c : Nat) :
    (m.entryAt? c).map Run.value = Run.valueAt? m.entries.toList c :=
  Run.map_value_findAt? m.tiles.inOrder c

/-! ### Cutting -/

theorem mem_sortedDistinct {ns : List Nat} {n : Nat} : n ∈ sortedDistinct ns ↔ n ∈ ns := by
  unfold sortedDistinct
  rw [Std.ExtTreeSet.mem_toList, Std.ExtTreeSet.mem_ofList]
  simp

theorem pairwise_sortedDistinct (ns : List Nat) : (sortedDistinct ns).Pairwise (· < ·) := by
  unfold sortedDistinct
  exact Std.ExtTreeSet.ordered_toList.imp fun h => Nat.compare_eq_lt.1 h

/-- A sorted list of distinct numbers that holds its lower bound starts with it. -/
theorem exists_eq_cons_of_le {n : Nat} {ns : List Nat} (hmem : n ∈ ns)
    (sorted : ns.Pairwise (· < ·)) (hle : ∀ m ∈ ns, n ≤ m) : ∃ rest, ns = n :: rest := by
  cases ns with
  | nil => cases hmem
  | cons m rest =>
    rcases List.mem_cons.1 hmem with rfl | hmem
    · exact ⟨rest, rfl⟩
    · have := (List.pairwise_cons.1 sorted).1 n hmem
      have := hle m (List.mem_cons_self ..)
      omega

theorem Region.ofBounds?_eq_some {first last : Nat} (h : first ≤ last) (hlast : last < spaceSize) :
    Region.ofBounds? first last = some ⟨first, last, h, hlast⟩ :=
  dif_pos ⟨h, hlast⟩

namespace Run

variable {α : Type}

/-- The pieces of a cut tile what was cut. -/
theorem tilesFrom_cutAt {last start : Nat} {starts : List Nat} (hlast : last < spaceSize)
    (sorted : (start :: starts).Pairwise (· < ·)) (hle : ∀ s ∈ start :: starts, s ≤ last)
    (f : Region → α) :
    TilesFrom start last ((cutAt last (start :: starts)).map fun piece => ⟨piece, f piece⟩) := by
  induction starts generalizing start with
  | nil =>
    have hstart := hle start (List.mem_cons_self ..)
    rw [cutAt, Region.ofBounds?_eq_some hstart hlast]
    exact ⟨rfl, rfl⟩
  | cons next rest ih =>
    have hlt : start < next := (List.pairwise_cons.1 sorted).1 next (List.mem_cons_self ..)
    have hnext := hle next (by simp)
    rw [cutAt, Region.ofBounds?_eq_some (by omega) (by omega), Option.toList_some,
      List.singleton_append, List.map_cons]
    refine ⟨rfl, ?_⟩
    rw [show next - 1 + 1 = next by omega]
    exact ih (List.pairwise_cons.1 sorted).2 fun s hs => hle s (List.mem_cons_of_mem _ hs)

/-- Where a function has not changed since the last cut, the pieces with its values at their first
coordinates stand for it. -/
theorem valueAt?_cutAt {last start : Nat} {starts : List Nat} (hlast : last < spaceSize)
    (sorted : (start :: starts).Pairwise (· < ·)) (hle : ∀ s ∈ start :: starts, s ≤ last)
    {f : Nat → α} {c : Nat} (hstart : start ≤ c) (hc : c ≤ last)
    (constant : ∀ s ∈ start :: starts, s ≤ c →
      (∀ s' ∈ start :: starts, s' ≤ c → s' ≤ s) → f s = f c) :
    valueAt? ((cutAt last (start :: starts)).map fun piece => ⟨piece, f piece.first⟩) c =
      some (f c) := by
  induction starts generalizing start with
  | nil =>
    rw [cutAt, Region.ofBounds?_eq_some (Nat.le_trans hstart hc) hlast, Option.toList_some,
      List.map_cons, valueAt?_cons, if_pos (Region.mem_iff.2 ⟨hstart, hc⟩)]
    exact congrArg some (constant start (by simp) hstart (by simp))
  | cons next rest ih =>
    obtain ⟨hstarts, hrest⟩ := List.pairwise_cons.1 sorted
    have hlt : start < next := hstarts next (List.mem_cons_self ..)
    have hnext := hle next (by simp)
    rw [cutAt, Region.ofBounds?_eq_some (by omega) (by omega), Option.toList_some,
      List.singleton_append, List.map_cons, valueAt?_cons]
    by_cases hbefore : c < next
    · rw [if_pos (Region.mem_iff.2 ⟨hstart, Nat.le_sub_one_of_lt hbefore⟩)]
      refine congrArg some (constant start (by simp) hstart fun s hs hsc => ?_)
      rcases List.mem_cons.1 hs with rfl | hs
      · exact Nat.le_refl _
      · -- Every later cut lies behind the coordinate.
        rcases List.mem_cons.1 hs with rfl | hs
        · omega
        · have := (List.pairwise_cons.1 hrest).1 s hs
          omega
    · rw [if_neg (by simp only [Region.mem_iff]; omega)]
      refine ih hrest (fun s hs => hle s (List.mem_cons_of_mem _ hs)) (by omega) ?_
      intro s hs hsc hmax
      refine constant s (List.mem_cons_of_mem _ hs) hsc fun s' hs' hs'c => ?_
      rcases List.mem_cons.1 hs' with rfl | hs'
      · exact Nat.le_of_lt (hstarts s hs)
      · exact hmax s' hs' hs'c

end Run

end ReplicaRing
