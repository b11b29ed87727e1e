import ReplicaRing.Run
import Mathlib.Data.List.Chain

/-!
# Runs as functions on coordinates

A list of runs stands for the partial function `Run.valueAt?`. Runs that tile a region give a value
at exactly the coordinates of the region (`TilesFrom.isSome_valueAt?`), and putting runs in
canonical form changes neither what they tile (`tilesFrom_merge`) nor the function they stand for
(`valueAt?_merge`). The canonical form of runs that are in order already is their merge
(`InOrder.canonical_eq`).
-/

namespace ReplicaRing

theorem Region.mem_join {a b : Region} (h : a.Meets b) {c : Nat} :
    c ∈ a.join b h ↔ c ∈ a ∨ c ∈ b := by
  have ha := a.first_le_last
  have hb := b.first_le_last
  simp only [Region.mem_iff, Region.join]
  unfold Region.Meets at h
  omega

theorem Region.overlaps_iff {a b : Region} :
    a.Overlaps b ↔ a.first ≤ b.last ∧ b.first ≤ a.last :=
  Iff.rfl

theorem Region.first_add_size (r : Region) : r.first + r.size = r.last + 1 := by
  have := r.first_le_last
  unfold Region.size
  omega

/-- The offsets below its size lead to the coordinates of a region. -/
theorem Region.first_add_mem {r : Region} {o : Nat} : r.first + o ∈ r ↔ o < r.size := by
  have := r.first_add_size
  rw [Region.mem_iff]
  omega

theorem Region.sub_first_lt {r : Region} {c : Nat} (h : c ∈ r) : c - r.first < r.size := by
  rwa [← Region.first_add_mem, Nat.add_sub_cancel' h.1]

namespace Run

variable {α β : Type}

/-! ### Tilings -/

/-- A tiling ends where its last run ends, so it never runs past the end of its region. -/
theorem TilesFrom.le {first last : Nat} {runs : List (Run α)} (h : TilesFrom first last runs) :
    first ≤ last + 1 := by
  induction runs generalizing first with
  | nil => exact Nat.le_of_eq h
  | cons run rest ih =>
    have := ih h.2
    have := h.1
    have := run.region.first_le_last
    omega

theorem TilesFrom.bounds {first last : Nat} {runs : List (Run α)} (h : TilesFrom first last runs)
    {run : Run α} (hrun : run ∈ runs) : first ≤ run.region.first ∧ run.region.last ≤ last := by
  induction runs generalizing first with
  | nil => cases hrun
  | cons head rest ih =>
    have hfirst := h.1
    have hle := h.2.le
    have hhead := head.region.first_le_last
    rcases List.mem_cons.1 hrun with rfl | hmem
    · omega
    · have := ih h.2 hmem
      omega

/-- The runs of a tiling come in order and do not overlap. -/
theorem TilesFrom.pairwise {first last : Nat} {runs : List (Run α)}
    (h : TilesFrom first last runs) :
    runs.Pairwise fun a b => a.region.last < b.region.first := by
  induction runs generalizing first with
  | nil => exact List.Pairwise.nil
  | cons run rest ih =>
    refine List.pairwise_cons.2 ⟨fun b hb => ?_, ih h.2⟩
    have := (h.2.bounds hb).1
    omega

/-- Each run ends before the next one starts. There may be gaps between them. -/
def InOrder (runs : List (Run α)) : Prop :=
  runs.Pairwise fun a b => a.region.last < b.region.first

theorem TilesFrom.inOrder {first last : Nat} {runs : List (Run α)}
    (h : TilesFrom first last runs) : InOrder runs :=
  h.pairwise

/-- Two tilings, the second of which starts right after the first, make one. -/
theorem TilesFrom.append {first middle last : Nat} {xs ys : List (Run α)}
    (hx : TilesFrom first middle xs) (hy : TilesFrom (middle + 1) last ys) :
    TilesFrom first last (xs ++ ys) := by
  induction xs generalizing first with
  | nil =>
    obtain rfl : first = middle + 1 := hx
    exact hy
  | cons run rest ih => exact ⟨hx.1, ih hx.2⟩

/-- Whether runs tile a region depends on their regions only. -/
theorem TilesFrom.map {first last : Nat} {runs : List (Run α)} (h : TilesFrom first last runs)
    {f : Run α → Run β} (hf : ∀ run, (f run).region = run.region) :
    TilesFrom first last (runs.map f) := by
  induction runs generalizing first with
  | nil => exact h
  | cons run rest ih =>
    rw [List.map_cons]
    refine ⟨?_, ?_⟩
    · rw [hf]
      exact h.1
    · rw [hf]
      exact ih h.2

theorem InOrder.map {runs : List (Run α)} (h : InOrder runs) {f : Run α → Run β}
    (hf : ∀ run, (f run).region = run.region) : InOrder (runs.map f) := by
  refine List.pairwise_map.2 (h.imp fun {a b} hab => ?_)
  rwa [hf, hf]

/-! ### Values -/

theorem valueAt?_cons (run : Run α) (rest : List (Run α)) (c : Nat) :
    valueAt? (run :: rest) c = if c ∈ run.region then some run.value else valueAt? rest c := by
  unfold valueAt?
  rw [List.find?_cons]
  by_cases h : c ∈ run.region <;> simp [h]

/-- Changing every value changes the value at a coordinate. -/
theorem valueAt?_map {runs : List (Run α)} {f : Run α → Run β} {g : α → β}
    (hregion : ∀ run, (f run).region = run.region) (hvalue : ∀ run, (f run).value = g run.value)
    (c : Nat) : valueAt? (runs.map f) c = (valueAt? runs c).map g := by
  induction runs with
  | nil => rfl
  | cons run rest ih =>
    rw [List.map_cons, valueAt?_cons, valueAt?_cons, ih, hregion, hvalue]
    split <;> rfl

/-- The value at a coordinate is that of a run that holds it. -/
theorem mem_of_valueAt?_eq_some {runs : List (Run α)} {c : Nat} {v : α}
    (h : valueAt? runs c = some v) : ∃ run ∈ runs, c ∈ run.region ∧ run.value = v := by
  unfold valueAt? at h
  obtain ⟨run, hrun, rfl⟩ := Option.map_eq_some_iff.1 h
  exact ⟨run, List.mem_of_find?_eq_some hrun, of_decide_eq_true (List.find?_some hrun :), rfl⟩

theorem valueAt?_eq_none {runs : List (Run α)} {c : Nat} (h : ∀ run ∈ runs, c ∉ run.region) :
    valueAt? runs c = none := by
  unfold valueAt?
  rw [List.find?_eq_none.2 fun run hrun => by simpa using h run hrun]
  rfl

/-- A tiling gives a value at every coordinate of its region and nowhere else. -/
theorem TilesFrom.isSome_valueAt? {first last : Nat} {runs : List (Run α)}
    (h : TilesFrom first last runs) (c : Nat) :
    (valueAt? runs c).isSome ↔ first ≤ c ∧ c ≤ last := by
  induction runs generalizing first with
  | nil =>
    have : first = last + 1 := h
    simp only [valueAt?, List.find?_nil, Option.map_none, Option.isSome_none]
    constructor
    · intro hc; cases hc
    · intro hc; omega
  | cons run rest ih =>
    have hrun := run.region.first_le_last
    have hfirst := h.1
    have hle := h.2.le
    rw [valueAt?_cons]
    split
    · rename_i hc
      rw [Region.mem_iff] at hc
      simp only [Option.isSome_some, true_iff]
      omega
    · rename_i hc
      rw [Region.mem_iff] at hc
      rw [ih h.2]
      omega

/-- Among runs in order, a coordinate has the value of the run that holds it. -/
theorem InOrder.valueAt?_of_mem {runs : List (Run α)} (h : InOrder runs) {run : Run α}
    (hrun : run ∈ runs) {c : Nat} (hc : c ∈ run.region) : valueAt? runs c = some run.value := by
  induction runs with
  | nil => cases hrun
  | cons head rest ih =>
    rw [valueAt?_cons]
    rcases List.mem_cons.1 hrun with rfl | hmem
    · rw [if_pos hc]
    · -- The coordinate lies after the first run.
      have hlater := (List.pairwise_cons.1 h).1 run hmem
      rw [Region.mem_iff] at hc
      rw [if_neg (by rw [Region.mem_iff]; omega)]
      exact ih (List.pairwise_cons.1 h).2 hmem

theorem TilesFrom.valueAt?_of_mem {first last : Nat} {runs : List (Run α)}
    (h : TilesFrom first last runs) {run : Run α} (hrun : run ∈ runs) {c : Nat}
    (hc : c ∈ run.region) : valueAt? runs c = some run.value :=
  h.inOrder.valueAt?_of_mem hrun hc

/-! ### Merging -/

section Merge

variable [DecidableEq α]

/-- Joining two runs keeps the function they stand for: no coordinate lies between them. -/
theorem valueAt?_mergeFrom (run : Run α) (rest : List (Run α)) (c : Nat) :
    valueAt? (mergeFrom run rest) c = valueAt? (run :: rest) c := by
  induction rest generalizing run with
  | nil => rfl
  | cons next rest ih =>
    rw [mergeFrom]
    split
    · rename_i h
      rw [ih, valueAt?_cons, valueAt?_cons, valueAt?_cons]
      simp only [Region.mem_join]
      by_cases hrun : c ∈ run.region
      · simp [hrun]
      · by_cases hnext : c ∈ next.region
        · simp [hrun, hnext, h.1]
        · simp [hrun, hnext]
    · rw [valueAt?_cons, ih, valueAt?_cons run]

theorem valueAt?_merge (runs : List (Run α)) (c : Nat) :
    valueAt? (merge runs) c = valueAt? runs c := by
  cases runs with
  | nil => rfl
  | cons run rest => exact valueAt?_mergeFrom run rest c

/-- Merged runs tile what the runs tile, and nothing else. -/
theorem tilesFrom_mergeFrom {first last : Nat} (run : Run α) (rest : List (Run α)) :
    TilesFrom first last (mergeFrom run rest) ↔ TilesFrom first last (run :: rest) := by
  induction rest generalizing run first with
  | nil => rfl
  | cons next rest ih =>
    rw [mergeFrom]
    split
    · rename_i h
      rw [ih]
      simp only [TilesFrom, Region.join]
      have hmeets := h.2
      unfold Region.Meets at hmeets
      constructor
      · rintro ⟨hfirst, hrest⟩
        exact ⟨hfirst, hmeets.symm, hrest⟩
      · rintro ⟨hfirst, -, hrest⟩
        exact ⟨hfirst, hrest⟩
    · simp only [TilesFrom, ih]

theorem tilesFrom_merge {first last : Nat} (runs : List (Run α)) :
    TilesFrom first last (merge runs) ↔ TilesFrom first last runs := by
  cases runs with
  | nil => rfl
  | cons run rest => exact tilesFrom_mergeFrom run rest

/-- Bringing runs in order into canonical form only merges them. -/
theorem InOrder.canonical_eq {runs : List (Run α)} (h : InOrder runs) :
    canonical runs = merge runs := by
  unfold canonical
  rw [sortBy_of_pairwise]
  refine h.imp fun {a b} hab => ?_
  have hlt : a.region.first < b.region.first :=
    Nat.lt_of_le_of_lt a.region.first_le_last hab
  simp [Region.precedes, Region.compare, Nat.compare_eq_lt.2 hlt]

theorem InOrder.valueAt?_canonical {runs : List (Run α)} (h : InOrder runs) (c : Nat) :
    valueAt? (Run.canonical runs) c = valueAt? runs c := by
  rw [h.canonical_eq, valueAt?_merge]

theorem TilesFrom.canonical {first last : Nat} {runs : List (Run α)}
    (h : TilesFrom first last runs) : TilesFrom first last (Run.canonical runs) := by
  rw [h.inOrder.canonical_eq]
  exact (tilesFrom_merge runs).2 h

theorem TilesFrom.valueAt?_canonical {first last : Nat} {runs : List (Run α)}
    (h : TilesFrom first last runs) (c : Nat) :
    valueAt? (Run.canonical runs) c = valueAt? runs c :=
  h.inOrder.valueAt?_canonical c

omit [DecidableEq α] in
/-- In a merged tiling, neighbours differ in their values. -/
theorem TilesFrom.isChain_of_merged {first last : Nat} {runs : List (Run α)}
    (h : TilesFrom first last runs) (hm : Merged runs) :
    runs.IsChain fun a b => a.value ≠ b.value := by
  induction runs generalizing first with
  | nil => exact List.IsChain.nil
  | cons run rest ih =>
    cases rest with
    | nil => exact List.IsChain.singleton _
    | cons next rest =>
      refine List.IsChain.cons_cons (fun heq => hm.1 ⟨heq, ?_⟩) (ih h.2 hm.2)
      exact h.2.1.symm

end Merge

end Run

end ReplicaRing
