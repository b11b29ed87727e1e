import ReplicaRing.Placement.Attempt
import Mathlib.Algebra.BigOperators.Intervals

/-!
# Layers as functions on offsets

A layer stands for the function that gives the owner of each offset. Its spans follow one another
(`Layer.SpansFrom`), so each offset lies in exactly one of them, and what a member holds is counted
offset by offset (`holding_singleton`). Several layers give each offset a column of owners, one
owner from each layer; what a member holds in all of them is the number of times it stands in the
columns (`holding_eq_sum_count`).
-/

namespace ReplicaRing

open PlacementRequest (ownerAt?)

theorem PlacementRequest.ownerAt?_cons (s : Span) (rest : Layer) (o : Nat) :
    ownerAt? (s :: rest) o =
      if s.stop ≤ o then ownerAt? rest o else if s.start ≤ o then s.owner else none := by
  unfold ownerAt?
  by_cases hstop : s.stop ≤ o
  · rw [List.dropWhile_cons_of_pos (by simpa using hstop), if_pos hstop]
  · rw [List.dropWhile_cons_of_neg (by simpa using hstop), if_neg hstop]
    by_cases hstart : s.start ≤ o <;> simp [Option.filter, hstart]

namespace Layer

open PlacementRequest

/-- The spans follow one another without a gap or an overlap from the offset `start` up to, but not
including, the offset `stop`, and none of them is empty. -/
def SpansFrom (start stop : Nat) : List Span → Prop
  | [] => start = stop
  | s :: rest => s.start = start ∧ 0 < s.length ∧ SpansFrom s.stop stop rest

theorem SpansFrom.le {start stop : Nat} {layer : Layer} (h : SpansFrom start stop layer) :
    start ≤ stop := by
  induction layer generalizing start with
  | nil => exact Nat.le_of_eq h
  | cons s rest ih =>
    have hstart := h.1
    have hle := ih h.2.2
    unfold Span.stop at hle
    omega

theorem SpansFrom.bounds {start stop : Nat} {layer : Layer} (h : SpansFrom start stop layer)
    {s : Span} (hs : s ∈ layer) : start ≤ s.start ∧ s.start < s.stop ∧ s.stop ≤ stop := by
  induction layer generalizing start with
  | nil => cases hs
  | cons head rest ih =>
    have hstart := h.1
    have hpos := h.2.1
    have hle := h.2.2.le
    have hstop : head.stop = head.start + head.length := rfl
    rcases List.mem_cons.1 hs with rfl | hmem
    · omega
    · have := ih h.2.2 hmem
      omega

theorem SpansFrom.append {start middle stop : Nat} {xs ys : Layer}
    (hx : SpansFrom start middle xs) (hy : SpansFrom middle stop ys) :
    SpansFrom start stop (xs ++ ys) := by
  induction xs generalizing start with
  | nil =>
    obtain rfl : start = middle := hx
    exact hy
  | cons s rest ih => exact ⟨hx.1, hx.2.1, ih hx.2.2⟩

/-! ### Owners -/

/-- Nobody owns an offset outside of the spans. -/
theorem SpansFrom.ownerAt?_eq_none {start stop : Nat} {layer : Layer}
    (h : SpansFrom start stop layer) {o : Nat} (ho : o < start ∨ stop ≤ o) :
    ownerAt? layer o = none := by
  induction layer generalizing start with
  | nil => rfl
  | cons s rest ih =>
    have hstart := h.1
    have hstop : s.stop = s.start + s.length := rfl
    have hle := h.2.2.le
    rw [ownerAt?_cons]
    split
    · exact ih h.2.2 (by omega)
    · rw [if_neg (by omega)]

theorem SpansFrom.ownerAt?_cons {start stop : Nat} {s : Span} {rest : Layer}
    (h : SpansFrom start stop (s :: rest)) {o : Nat} (ho : start ≤ o) :
    ownerAt? (s :: rest) o = if o < s.stop then s.owner else ownerAt? rest o := by
  have hstart := h.1
  rw [PlacementRequest.ownerAt?_cons]
  by_cases hstop : s.stop ≤ o
  · rw [if_pos hstop, if_neg (by omega)]
  · rw [if_neg hstop, if_pos (by omega), if_pos (by omega)]

theorem SpansFrom.ownerAt?_append {start middle stop : Nat} {xs ys : Layer}
    (hx : SpansFrom start middle xs) (hy : SpansFrom middle stop ys) (o : Nat) :
    ownerAt? (xs ++ ys) o = if o < middle then ownerAt? xs o else ownerAt? ys o := by
  induction xs generalizing start with
  | nil =>
    split
    · rename_i ho
      exact hy.ownerAt?_eq_none (Or.inl ho)
    · rfl
  | cons s rest ih =>
    have hle := hx.2.2.le
    have hstop : s.stop = s.start + s.length := rfl
    rw [List.cons_append, PlacementRequest.ownerAt?_cons, PlacementRequest.ownerAt?_cons,
      ih hx.2.2]
    by_cases h : s.stop ≤ o
    · simp only [if_pos h]
    · rw [if_neg h, if_neg h, if_pos (show o < middle by omega)]

/-- Between two starts of spans the owner does not change. -/
theorem SpansFrom.ownerAt?_eq_of_no_start {start stop : Nat} {layer : Layer}
    (h : SpansFrom start stop layer) {a b : Nat} (hstart : start ≤ a) (hab : a ≤ b) (hb : b < stop)
    (hnone : ∀ s ∈ layer, s.start ≤ b → s.start ≤ a) : ownerAt? layer a = ownerAt? layer b := by
  induction layer generalizing start with
  | nil => rfl
  | cons s rest ih =>
    rw [h.ownerAt?_cons hstart, h.ownerAt?_cons (Nat.le_trans hstart hab)]
    by_cases ha : a < s.stop
    · -- The next span, if there is one, starts where this one stops, and so not at or before `b`.
      have hbs : b < s.stop := by
        cases rest with
        | nil =>
          have : s.stop = stop := h.2.2
          omega
        | cons next rest =>
          have hnext := hnone next (by simp)
          have := h.2.2.1
          omega
      rw [if_pos ha, if_pos hbs]
    · rw [if_neg ha, if_neg (by omega)]
      exact ih h.2.2 (by omega) fun s hs => hnone s (List.mem_cons_of_mem _ hs)

/-- An offset has the owner of the span that holds it. -/
theorem SpansFrom.ownerAt?_of_mem {start stop : Nat} {layer : Layer}
    (h : SpansFrom start stop layer) {s : Span} (hs : s ∈ layer) {o : Nat} (hstart : s.start ≤ o)
    (hstop : o < s.stop) : ownerAt? layer o = s.owner := by
  induction layer generalizing start with
  | nil => cases hs
  | cons head rest ih =>
    have hle : start ≤ o := Nat.le_trans (h.bounds hs).1 hstart
    rw [h.ownerAt?_cons hle]
    rcases List.mem_cons.1 hs with rfl | hmem
    · rw [if_pos hstop]
    · have := (h.2.2.bounds hmem).1
      rw [if_neg (by omega)]
      exact ih h.2.2 hmem

/-- An offset that has an owner lies in a span of that owner. -/
theorem exists_span_of_ownerAt?_eq_some {layer : Layer} {o m : Nat}
    (h : ownerAt? layer o = some m) : ∃ s ∈ layer, s.owner = some m ∧ s.start ≤ o ∧ o < s.stop := by
  induction layer with
  | nil => cases h
  | cons s rest ih =>
    rw [PlacementRequest.ownerAt?_cons] at h
    split at h
    · obtain ⟨t, ht, hprop⟩ := ih h
      exact ⟨t, List.mem_cons_of_mem _ ht, hprop⟩
    · split at h
      · exact ⟨s, List.mem_cons_self .., h, by assumption, by omega⟩
      · cases h

/-! ### Holdings -/

theorem holding_cons (layer : Layer) (layers : List Layer) (m : Nat) :
    holding (layer :: layers) m = holding [layer] m + holding layers m := by
  simp [holding]

theorem holding_append (xs ys : List Layer) (m : Nat) :
    holding (xs ++ ys) m = holding xs m + holding ys m := by
  simp [holding]

theorem holding_singleton_append (xs ys : Layer) (m : Nat) :
    holding [xs ++ ys] m = holding [xs] m + holding [ys] m := by
  simp [holding]

theorem holding_singleton_cons (s : Span) (rest : Layer) (m : Nat) :
    holding [s :: rest] m = (if s.owner = some m then s.length else 0) + holding [rest] m := by
  unfold holding
  by_cases h : s.owner = some m <;> simp [h]

/-- What a member holds in a layer is counted offset by offset. -/
theorem SpansFrom.holding_singleton {start stop : Nat} {layer : Layer}
    (h : SpansFrom start stop layer) (m : Nat) :
    holding [layer] m =
      ∑ o ∈ Finset.Ico start stop, if ownerAt? layer o = some m then 1 else 0 := by
  induction layer generalizing start with
  | nil =>
    obtain rfl : start = stop := h
    simp [holding]
  | cons s rest ih =>
    have hstart := h.1
    have hstop : s.stop = s.start + s.length := rfl
    have hle := h.2.2.le
    rw [holding_singleton_cons, ih h.2.2,
      ← Finset.sum_Ico_consecutive _ (show start ≤ s.stop by omega) hle]
    congr 1
    · -- Within the first span, all offsets have its owner.
      have hfirst : ∀ o ∈ Finset.Ico start s.stop,
          (if ownerAt? (s :: rest) o = some m then 1 else 0) =
            if s.owner = some m then 1 else 0 := by
        intro o ho
        rw [Finset.mem_Ico] at ho
        rw [h.ownerAt?_cons ho.1, if_pos ho.2]
      rw [Finset.sum_congr rfl hfirst]
      split
      · rw [Finset.sum_const_nat (fun _ _ => rfl), Nat.card_Ico]
        omega
      · rw [Finset.sum_const_zero]
    · refine Finset.sum_congr rfl fun o ho => ?_
      rw [Finset.mem_Ico] at ho
      rw [h.ownerAt?_cons (by omega), if_neg (show ¬ o < s.stop by omega)]

/-! ### Tidying -/

theorem joinFrom_spec {start stop : Nat} {s : Span} {rest : Layer}
    (h : SpansFrom start stop (s :: rest)) :
    SpansFrom start stop (joinFrom s rest) ∧
      ∀ o, ownerAt? (joinFrom s rest) o = ownerAt? (s :: rest) o := by
  induction rest generalizing s start with
  | nil => exact ⟨h, fun _ => rfl⟩
  | cons next rest ih =>
    obtain ⟨hstart, hpos, hnext, hnextpos, hrest⟩ := h
    have hstop : s.stop = s.start + s.length := rfl
    have hnextstop : next.stop = next.start + next.length := rfl
    rw [joinFrom, if_neg (Nat.ne_of_gt hnextpos)]
    split
    · rename_i hjoin
      have hjoined : (⟨s.start, s.length + next.length, s.owner⟩ : Span).stop = next.stop := by
        show s.start + (s.length + next.length) = _
        omega
      have hspans : SpansFrom start stop
          (⟨s.start, s.length + next.length, s.owner⟩ :: rest) := by
        refine ⟨hstart, by dsimp only; omega, ?_⟩
        rw [hjoined]
        exact hrest
      obtain ⟨hspans', howner⟩ := ih hspans
      refine ⟨hspans', fun o => ?_⟩
      rw [howner, PlacementRequest.ownerAt?_cons, PlacementRequest.ownerAt?_cons,
        PlacementRequest.ownerAt?_cons, hjoined]
      by_cases hs : s.stop ≤ o
      · by_cases hn : next.stop ≤ o
        · rw [if_pos hn, if_pos hs, if_pos hn]
        · rw [if_neg hn, if_pos hs, if_neg hn, if_pos (show s.start ≤ o by omega),
            if_pos (show next.start ≤ o by omega)]
          exact hjoin.1
      · rw [if_neg (show ¬ next.stop ≤ o by omega), if_neg hs]
    · obtain ⟨hspans, howner⟩ := ih ⟨hnext, hnextpos, hrest⟩
      refine ⟨⟨hstart, hpos, hspans⟩, fun o => ?_⟩
      rw [PlacementRequest.ownerAt?_cons, howner, PlacementRequest.ownerAt?_cons s]

/-- Tidying changes neither what the spans cover nor who owns which offset. -/
theorem tidy_spec {start stop : Nat} {layer : Layer} (h : SpansFrom start stop layer) :
    SpansFrom start stop (tidy layer) ∧ ∀ o, ownerAt? (tidy layer) o = ownerAt? layer o := by
  cases layer with
  | nil => exact ⟨h, fun _ => rfl⟩
  | cons s rest =>
    rw [tidy, if_neg (Nat.ne_of_gt h.2.1)]
    exact joinFrom_spec h

theorem SpansFrom.holding_tidy {start stop : Nat} {layer : Layer} (h : SpansFrom start stop layer)
    (m : Nat) : holding [tidy layer] m = holding [layer] m := by
  rw [(tidy_spec h).1.holding_singleton, h.holding_singleton]
  simp only [(tidy_spec h).2]

/-! ### Columns -/

/-- The owners of an offset, one from each layer. -/
def column (layers : List Layer) (o : Nat) : List (Option Nat) :=
  layers.map (ownerAt? · o)

@[simp] theorem length_column (layers : List Layer) (o : Nat) :
    (column layers o).length = layers.length :=
  List.length_map _

@[simp] theorem column_cons (layer : Layer) (layers : List Layer) (o : Nat) :
    column (layer :: layers) o = ownerAt? layer o :: column layers o :=
  rfl

@[simp] theorem column_append (xs ys : List Layer) (o : Nat) :
    column (xs ++ ys) o = column xs o ++ column ys o :=
  List.map_append

/-- What a member holds in all layers is the number of its places in the columns. -/
theorem holding_eq_sum_count {size : Nat} {layers : List Layer}
    (h : ∀ layer ∈ layers, SpansFrom 0 size layer) (m : Nat) :
    holding layers m = ∑ o ∈ Finset.range size, (column layers o).count (some m) := by
  induction layers with
  | nil => simp [holding, column]
  | cons layer layers ih =>
    rw [holding_cons, ih fun l hl => h l (List.mem_cons_of_mem _ hl),
      (h layer (List.mem_cons_self ..)).holding_singleton, ← Finset.range_eq_Ico,
      ← Finset.sum_add_distrib]
    refine Finset.sum_congr rfl fun o _ => ?_
    rw [column_cons, List.count_cons, Nat.add_comm]
    simp [beq_iff_eq]

end Layer

end ReplicaRing
