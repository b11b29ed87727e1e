import ReplicaRing.Proofs.Layers.Filling

/-!
# Fresh layers

A fresh placement writes the quotas one after the other on a line and cuts the line into layers. An
offset of layer `j` has the owner of place `j * size` plus the offset on the line
(`ownerAt?_filterMap_cut`). When the quotas fill the layers exactly, every layer is full and every
member holds its quota (`spansFrom_fresh`, `holding_fresh`); when none of them is larger than a
layer, cutting puts no member twice on one offset (`distinct_fresh`).
-/

namespace ReplicaRing.Layer

open PlacementRequest (ownerAt?)

/-! ### The line -/

/-- A member owns the places on the line from the sum of the quotas before its own up to that sum
plus its own quota. -/
theorem ownerAt?_line {start first x m : Nat} {quotas : List Nat} :
    ownerAt? (line start first quotas) x = some m ↔
      ∃ i, m = first + i ∧ start + sumOf (quotas.take i) ≤ x ∧
        x < start + sumOf (quotas.take (i + 1)) := by
  induction quotas generalizing start first with
  | nil =>
    constructor
    · intro h; cases h
    · rintro ⟨i, -, hle, hlt⟩
      simp only [List.take_nil] at hle hlt
      omega
  | cons quota quotas ih =>
    have hstop : (⟨start, quota, some first⟩ : Span).stop = start + quota := rfl
    -- The first quota comes first on the line, and the others come after it.
    rw [line, PlacementRequest.ownerAt?_cons, hstop, ← Nat.or_exists_add_one]
    simp only [Nat.zero_add, Nat.add_zero, List.take_zero, List.take_succ_cons, sumOf_nil, sumOf_cons]
    split
    · rename_i hx
      rw [ih]
      constructor
      · rintro ⟨i, rfl, hle, hlt⟩
        exact Or.inr ⟨i, by omega, by omega, by omega⟩
      · rintro (⟨-, -, hlt⟩ | ⟨i, rfl, hle, hlt⟩)
        · omega
        · exact ⟨i, by omega, by omega, by omega⟩
    · split
      · constructor
        · intro h
          obtain rfl := Option.some.inj h
          exact Or.inl ⟨rfl, by omega, by omega⟩
        · rintro (⟨rfl, -, -⟩ | ⟨i, -, hle, -⟩)
          · rfl
          · omega
      · constructor
        · intro h; cases h
        · rintro (⟨-, hle, -⟩ | ⟨i, -, hle, -⟩) <;> omega

/-! ### Cutting the line -/

/-- The part of the line before the place `x` that lies in layer `j`. -/
def clamp (size j x : Nat) : Nat :=
  min (x - j * size) size

theorem spansFrom_filterMap_cut (size j start first : Nat) (quotas : List Nat) :
    SpansFrom (clamp size j start) (clamp size j (start + sumOf quotas))
      ((line start first quotas).filterMap (cut? size j)) := by
  induction quotas generalizing start first with
  | nil => rfl
  | cons quota quotas ih =>
    have ih := ih (start + quota) (first + 1)
    rw [sumOf_cons, ← Nat.add_assoc, line]
    have hlayer : (j + 1) * size = j * size + size := Nat.succ_mul j size
    have hstop : (⟨start, quota, some first⟩ : Span).stop = start + quota := rfl
    by_cases hcut : max start (j * size) < min (start + quota) ((j + 1) * size)
    · have hsome : cut? size j ⟨start, quota, some first⟩ = some ⟨max start (j * size) - j * size,
          min (start + quota) ((j + 1) * size) - max start (j * size), some first⟩ := if_pos hcut
      rw [List.filterMap_cons_some hsome]
      refine ⟨?_, by dsimp only; omega, ?_⟩
      · dsimp only [clamp]
        omega
      · have hend : (⟨max start (j * size) - j * size,
            min (start + quota) ((j + 1) * size) - max start (j * size), some first⟩ : Span).stop =
            clamp size j (start + quota) := by
          dsimp only [Span.stop, clamp]
          omega
        rw [hend]
        exact ih
    · have hnone : cut? size j ⟨start, quota, some first⟩ = none := if_neg hcut
      rw [List.filterMap_cons_none hnone]
      have hsame : clamp size j start = clamp size j (start + quota) := by
        dsimp only [clamp]
        omega
      rw [hsame]
      exact ih

/-- An offset of a layer has the owner of its place on the line. -/
theorem ownerAt?_filterMap_cut {size j start first o : Nat} {quotas : List Nat} (ho : o < size) :
    ownerAt? ((line start first quotas).filterMap (cut? size j)) o =
      ownerAt? (line start first quotas) (j * size + o) := by
  induction quotas generalizing start first with
  | nil => rfl
  | cons quota quotas ih =>
    have hlayer : (j + 1) * size = j * size + size := Nat.succ_mul j size
    have hstop : (⟨start, quota, some first⟩ : Span).stop = start + quota := rfl
    rw [line, PlacementRequest.ownerAt?_cons, hstop]
    by_cases hcut : max start (j * size) < min (start + quota) ((j + 1) * size)
    · have hsome : cut? size j ⟨start, quota, some first⟩ = some ⟨max start (j * size) - j * size,
          min (start + quota) ((j + 1) * size) - max start (j * size), some first⟩ := if_pos hcut
      have hend : (⟨max start (j * size) - j * size,
          min (start + quota) ((j + 1) * size) - max start (j * size), some first⟩ : Span).stop =
          min (start + quota) ((j + 1) * size) - j * size := by
        dsimp only [Span.stop]
        omega
      have hfront : (⟨start, quota, some first⟩ : Span).start = start := rfl
      rw [List.filterMap_cons_some hsome, PlacementRequest.ownerAt?_cons, hend, ih, hfront]
      dsimp only
      by_cases hx : start + quota ≤ j * size + o
      · rw [if_pos hx, if_pos (by omega)]
      · rw [if_neg hx, if_neg (by omega)]
        by_cases hs : start ≤ j * size + o
        · rw [if_pos hs, if_pos (by omega)]
        · rw [if_neg hs, if_neg (by omega)]
    · have hnone : cut? size j ⟨start, quota, some first⟩ = none := if_neg hcut
      rw [List.filterMap_cons_none hnone, ih]
      split
      · rfl
      · -- Nothing of the span lies in the layer, so the offset lies before it.
        rename_i hx
        rw [if_neg (show ¬ start ≤ j * size + o by omega)]
        cases howner : ownerAt? (line (start + quota) (first + 1) quotas) (j * size + o) with
        | none => rfl
        | some m =>
          obtain ⟨i, -, hle, -⟩ := ownerAt?_line.1 howner
          omega

/-! ### Fresh layers -/

theorem length_fresh (quotas : List Nat) (replicas size : Nat) :
    (fresh quotas replicas size).length = replicas := by
  simp [fresh]

/-- Quotas that fill the layers exactly leave no gap in any of them. -/
theorem spansFrom_fresh {quotas : List Nat} {replicas size : Nat}
    (h : sumOf quotas = size * replicas) :
    ∀ layer ∈ fresh quotas replicas size, SpansFrom 0 size layer := by
  intro layer hl
  obtain ⟨j, hj, rfl⟩ := List.mem_map.1 hl
  have hcut := spansFrom_filterMap_cut size j 0 0 quotas
  have hstart : clamp size j 0 = 0 := by
    dsimp only [clamp]
    omega
  have hstop : clamp size j (0 + sumOf quotas) = size := by
    have hle : (j + 1) * size ≤ replicas * size :=
      Nat.mul_le_mul_right size (List.mem_range.1 hj)
    have hlayer : (j + 1) * size = j * size + size := Nat.succ_mul j size
    rw [h, Nat.mul_comm size]
    dsimp only [clamp]
    omega
  rwa [hstart, hstop] at hcut

/-- The owners of an offset stand a layer's length apart on the line. -/
theorem column_fresh {quotas : List Nat} {replicas size o : Nat} (ho : o < size) :
    column (fresh quotas replicas size) o =
      (List.range replicas).map fun j => ownerAt? (line 0 0 quotas) (j * size + o) := by
  unfold column fresh
  rw [List.map_map]
  exact List.map_congr_left fun j _ => ownerAt?_filterMap_cut ho

theorem sumOf_take_succ (ns : List Nat) (i : Nat) :
    sumOf (ns.take (i + 1)) = sumOf (ns.take i) + ns[i]?.getD 0 := by
  rw [List.take_add_one, sumOf_append]
  cases ns[i]? <;> rfl

theorem sumOf_take_le (ns : List Nat) (i : Nat) : sumOf (ns.take i) ≤ sumOf ns := by
  calc sumOf (ns.take i) ≤ sumOf (ns.take i) + sumOf (ns.drop i) := Nat.le_add_right _ _
    _ = sumOf ns := by rw [← sumOf_append, List.take_append_drop]

/-- A member owns as many places on the line as its quota says. -/
theorem ownerAt?_line_zero {quotas : List Nat} {x m : Nat} :
    ownerAt? (line 0 0 quotas) x = some m ↔
      sumOf (quotas.take m) ≤ x ∧ x < sumOf (quotas.take m) + quotas[m]?.getD 0 := by
  rw [ownerAt?_line]
  constructor
  · rintro ⟨i, rfl, hle, hlt⟩
    rw [Nat.zero_add, sumOf_take_succ] at hlt
    rw [Nat.zero_add] at hle ⊢
    exact ⟨hle, hlt⟩
  · rintro ⟨hle, hlt⟩
    rw [← sumOf_take_succ] at hlt
    exact ⟨m, (Nat.zero_add m).symm, by omega, by omega⟩

/-- A list holds a value at most once if no two places hold it. -/
theorem count_le_one {α : Type} [BEq α] [LawfulBEq α] {x : α} {xs : List α}
    (h : xs.Pairwise fun a b => a = x → b ≠ x) : xs.count x ≤ 1 := by
  induction xs with
  | nil => exact Nat.zero_le _
  | cons a xs ih =>
    obtain ⟨hfirst, hrest⟩ := List.pairwise_cons.1 h
    rw [List.count_cons]
    by_cases ha : a = x
    · have hzero : xs.count x = 0 := List.count_eq_zero.2 fun hx => hfirst x hx ha rfl
      rw [hzero]
      split <;> omega
    · rw [if_neg (by simpa using ha)]
      exact ih hrest

/-- A quota that is no larger than a layer does not come round to the same offset again. -/
theorem distinct_fresh {quotas : List Nat} {replicas size : Nat}
    (h : sumOf quotas = size * replicas) (hle : ∀ quota ∈ quotas, quota ≤ size) :
    Distinct (fresh quotas replicas size) := by
  refine distinct_of_lt (spansFrom_fresh h) fun o ho m => ?_
  rw [column_fresh ho]
  refine count_le_one (List.pairwise_map.2 ?_)
  refine List.pairwise_lt_range.imp fun {j j'} hlt hj hj' => ?_
  rw [ownerAt?_line_zero] at hj hj'
  have hquota : quotas[m]?.getD 0 ≤ size := by
    cases hm : quotas[m]? with
    | none => exact Nat.zero_le _
    | some quota => exact hle quota (List.mem_of_getElem? hm)
  have hnext : (j + 1) * size ≤ j' * size := Nat.mul_le_mul_right size hlt
  have hlayer : (j + 1) * size = j * size + size := Nat.succ_mul j size
  omega

/-- Going through the layers offset by offset goes along the line. -/
theorem sum_range_mul (f : Nat → Nat) (replicas size : Nat) :
    ∑ o ∈ Finset.range size, ∑ j ∈ Finset.range replicas, f (j * size + o) =
      ∑ x ∈ Finset.range (replicas * size), f x := by
  rw [Finset.sum_comm]
  induction replicas with
  | zero => simp
  | succ replicas ih => rw [Finset.sum_range_succ, ih, Nat.succ_mul, Finset.sum_range_add]

theorem count_map_range {α : Type} [BEq α] [LawfulBEq α] [DecidableEq α] (f : Nat → α) (x : α) (n : Nat) :
    ((List.range n).map f).count x = ∑ j ∈ Finset.range n, if f j = x then 1 else 0 := by
  induction n with
  | zero => rfl
  | succ n ih =>
    rw [List.range_succ, List.map_append, List.count_append, ih, Finset.sum_range_succ,
      List.map_singleton, List.count_singleton]
    simp [beq_iff_eq]

/-- In fresh layers, a member holds its quota. -/
theorem holding_fresh {quotas : List Nat} {replicas size : Nat}
    (h : sumOf quotas = size * replicas) (m : Nat) :
    holding (fresh quotas replicas size) m = quotas[m]?.getD 0 := by
  have hle : sumOf (quotas.take m) + quotas[m]?.getD 0 ≤ replicas * size := by
    rw [← sumOf_take_succ, Nat.mul_comm, ← h]
    exact sumOf_take_le quotas (m + 1)
  have hline := sum_range_mul (fun x => if ownerAt? (line 0 0 quotas) x = some m then 1 else 0)
    replicas size
  have hcount : ∀ o ∈ Finset.range size, (column (fresh quotas replicas size) o).count (some m) =
      ∑ j ∈ Finset.range replicas,
        if ownerAt? (line 0 0 quotas) (j * size + o) = some m then 1 else 0 := by
    intro o ho
    rw [column_fresh (Finset.mem_range.1 ho), count_map_range]
  have hplaces : (Finset.range (replicas * size)).filter
      (fun x => ownerAt? (line 0 0 quotas) x = some m) =
        Finset.Ico (sumOf (quotas.take m)) (sumOf (quotas.take m) + quotas[m]?.getD 0) := by
    ext x
    rw [Finset.mem_filter, Finset.mem_range, Finset.mem_Ico, ownerAt?_line_zero]
    omega
  rw [holding_eq_sum_count (spansFrom_fresh h), Finset.sum_congr rfl hcount, hline,
    ← Finset.card_filter, hplaces, Nat.card_Ico]
  omega

end ReplicaRing.Layer
