import ReplicaRing.Proofs.Runs

/-!
# Uniqueness of the canonical form

Runs in order may leave gaps between them; where there is no run, the function they stand for has no
value. Merged runs in order are determined by this function (`Run.eq_of_valueAt?`): a run ends where
the value of the function ends (`Run.InOrder.valueAt?_succ_ne`), so both lists start with the same
run, and the rests stand for the same function again.
-/

namespace ReplicaRing

theorem Region.eq_of_ends {a b : Region} (hfirst : a.first = b.first) (hlast : a.last = b.last) :
    a = b := by
  cases a
  cases b
  simp_all

namespace Run

variable {α β : Type}

theorem Merged.tail {run : Run α} {rest : List (Run α)} (h : Merged (run :: rest)) :
    Merged rest := by
  cases rest with
  | nil => trivial
  | cons next rest => exact h.2

/-! ### Values of runs in order -/

namespace InOrder

variable {run : Run α} {rest runs : List (Run α)} {c : Nat}

/-- The runs after a first one hold no coordinate up to its end. -/
theorem valueAt?_eq_none_of_le (h : InOrder (run :: rest)) (hc : c ≤ run.region.last) :
    valueAt? rest c = none := by
  refine valueAt?_eq_none fun next hnext hmem => ?_
  have hlater := (List.pairwise_cons.1 h).1 next hnext
  rw [Region.mem_iff] at hmem
  omega

/-- A coordinate before the first run has no value. -/
theorem first_le_of_valueAt?_eq_some (h : InOrder (run :: rest)) {v : α}
    (hv : valueAt? (run :: rest) c = some v) : run.region.first ≤ c := by
  obtain ⟨holder, hholder, hc, -⟩ := mem_of_valueAt?_eq_some hv
  rw [Region.mem_iff] at hc
  rcases List.mem_cons.1 hholder with rfl | hmem
  · exact hc.1
  · have hlater := (List.pairwise_cons.1 h).1 holder hmem
    have hrun := run.region.first_le_last
    omega

/-- Right after a run its value ends, or else the next run would be joined to it. -/
theorem valueAt?_succ_ne (h : InOrder (run :: rest)) (hm : Merged (run :: rest)) :
    valueAt? rest (run.region.last + 1) ≠ some run.value := by
  intro hv
  obtain ⟨holder, hholder, hc, hvalue⟩ := mem_of_valueAt?_eq_some hv
  rw [Region.mem_iff] at hc
  obtain ⟨hafter, hrest⟩ := List.pairwise_cons.1 h
  cases rest with
  | nil => cases hholder
  | cons next rest =>
    have hnext := hafter next (List.mem_cons_self ..)
    rcases List.mem_cons.1 hholder with rfl | hmem
    · have hmeets : run.region.Meets holder.region := by
        unfold Region.Meets
        omega
      exact (merged_cons.1 hm).1 ⟨hvalue.symm, hmeets⟩
    · -- The next run lies between the two.
      have hlater := (List.pairwise_cons.1 hrest).1 holder hmem
      have hle := next.region.first_le_last
      omega

/-- Of two lists that stand for one function, a first run reaches as far as the other one. -/
theorem last_le_of_valueAt? {run' : Run α} {rest' : List (Run α)} (h : InOrder (run :: rest))
    (hm : Merged (run :: rest)) (hfirst : run.region.first = run'.region.first)
    (hvalue : run.value = run'.value)
    (hsame : ∀ c, valueAt? (run :: rest) c = valueAt? (run' :: rest') c) :
    run'.region.last ≤ run.region.last := by
  by_contra hlonger
  have hle := run.region.first_le_last
  have hnext : run.region.last + 1 ∈ run'.region := by
    rw [Region.mem_iff]
    omega
  have hout : run.region.last + 1 ∉ run.region := by
    rw [Region.mem_iff]
    omega
  have hv := hsame (run.region.last + 1)
  rw [valueAt?_cons, if_neg hout, valueAt?_cons, if_pos hnext, ← hvalue] at hv
  exact h.valueAt?_succ_ne hm hv

end InOrder

/-- Merged runs in order are determined by the function they stand for. -/
theorem eq_of_valueAt? {xs ys : List (Run α)} (hx : InOrder xs) (hy : InOrder ys)
    (hmx : Merged xs) (hmy : Merged ys) (hsame : ∀ c, valueAt? xs c = valueAt? ys c) : xs = ys := by
  have hhead : ∀ (run : Run α) (rest : List (Run α)),
      valueAt? (run :: rest) run.region.first = some run.value := by
    intro run rest
    rw [valueAt?_cons, if_pos ⟨Nat.le_refl _, run.region.first_le_last⟩]
  induction xs generalizing ys with
  | nil =>
    cases ys with
    | nil => rfl
    | cons y ys =>
      have hnone := (hsame y.region.first).trans (hhead y ys)
      cases hnone
  | cons x xs ih =>
    cases ys with
    | nil =>
      have hnone := (hsame x.region.first).symm.trans (hhead x xs)
      cases hnone
    | cons y ys =>
      have hfirst : x.region.first = y.region.first :=
        Nat.le_antisymm (hx.first_le_of_valueAt?_eq_some ((hsame _).trans (hhead y ys)))
          (hy.first_le_of_valueAt?_eq_some ((hsame _).symm.trans (hhead x xs)))
      have hvalue : x.value = y.value := by
        have hv := (hhead x xs).symm.trans (hsame x.region.first)
        rw [hfirst, hhead y ys] at hv
        exact Option.some.inj hv
      have hlast : x.region.last = y.region.last :=
        Nat.le_antisymm
          (hy.last_le_of_valueAt? hmy hfirst.symm hvalue.symm fun c => (hsame c).symm)
          (hx.last_le_of_valueAt? hmx hfirst hvalue hsame)
      have hregion : x.region = y.region := Region.eq_of_ends hfirst hlast
      have hrest : ∀ c, valueAt? xs c = valueAt? ys c := by
        intro c
        by_cases hc : c ≤ x.region.last
        · rw [hx.valueAt?_eq_none_of_le hc, hy.valueAt?_eq_none_of_le (by omega)]
        · have hout : c ∉ x.region := fun hmem => hc hmem.2
          have hv := hsame c
          rwa [valueAt?_cons, if_neg hout, valueAt?_cons, if_neg (by rwa [← hregion])] at hv
      have hxy : x = y := by
        cases x
        cases y
        simp_all
      rw [hxy, ih (List.pairwise_cons.1 hx).2 (List.pairwise_cons.1 hy).2 hmx.tail hmy.tail hrest]

/-! ### Merging runs in order -/

section Merge

variable [DecidableEq α]

/-- Where a merged run starts and ends, one of the runs does. -/
theorem ends_of_mem_mergeFrom {run next : Run α} {rest : List (Run α)}
    (h : run ∈ mergeFrom next rest) :
    (∃ a ∈ next :: rest, run.region.first = a.region.first) ∧
      ∃ b ∈ next :: rest, run.region.last = b.region.last := by
  induction rest generalizing next with
  | nil =>
    obtain rfl := List.mem_singleton.1 h
    exact ⟨⟨run, List.mem_singleton_self run, rfl⟩, run, List.mem_singleton_self run, rfl⟩
  | cons second rest ih =>
    rw [mergeFrom] at h
    split at h
    · rename_i hjoins
      obtain ⟨⟨a, ha, hfirst⟩, b, hb, hlast⟩ := ih h
      constructor
      · rcases List.mem_cons.1 ha with rfl | ha
        · exact ⟨next, List.mem_cons_self .., hfirst⟩
        · exact ⟨a, List.mem_cons_of_mem _ (List.mem_cons_of_mem _ ha), hfirst⟩
      · rcases List.mem_cons.1 hb with rfl | hb
        · exact ⟨second, List.mem_cons_of_mem _ (List.mem_cons_self ..), hlast⟩
        · exact ⟨b, List.mem_cons_of_mem _ (List.mem_cons_of_mem _ hb), hlast⟩
    · rcases List.mem_cons.1 h with rfl | h
      · exact ⟨⟨run, List.mem_cons_self .., rfl⟩, run, List.mem_cons_self .., rfl⟩
      · obtain ⟨⟨a, ha, hfirst⟩, b, hb, hlast⟩ := ih h
        exact ⟨⟨a, List.mem_cons_of_mem _ ha, hfirst⟩, b, List.mem_cons_of_mem _ hb, hlast⟩

theorem ends_of_mem_merge {run : Run α} {runs : List (Run α)} (h : run ∈ merge runs) :
    (∃ a ∈ runs, run.region.first = a.region.first) ∧
      ∃ b ∈ runs, run.region.last = b.region.last := by
  cases runs with
  | nil => cases h
  | cons next rest => exact ends_of_mem_mergeFrom h

theorem InOrder.mergeFrom {run : Run α} {rest : List (Run α)} (h : InOrder (run :: rest)) :
    InOrder (mergeFrom run rest) := by
  induction rest generalizing run with
  | nil => exact h
  | cons next rest ih =>
    obtain ⟨hafter, hrest⟩ := List.pairwise_cons.1 h
    rw [Run.mergeFrom]
    split
    · -- The joined run ends where the second one does.
      exact ih (List.pairwise_cons.2 ⟨(List.pairwise_cons.1 hrest).1, (List.pairwise_cons.1 hrest).2⟩)
    · refine List.pairwise_cons.2 ⟨fun merged hmerged => ?_, ih hrest⟩
      obtain ⟨⟨a, ha, hfirst⟩, -⟩ := ends_of_mem_mergeFrom hmerged
      rw [hfirst]
      exact hafter a ha

theorem InOrder.merge {runs : List (Run α)} (h : InOrder runs) : InOrder (merge runs) := by
  cases runs with
  | nil => exact h
  | cons run rest => exact h.mergeFrom

end Merge

/-! ### Changing values and leaving runs out -/

/-- Runs stay merged if no two values become one. -/
theorem Merged.map {runs : List (Run α)} (h : Merged runs) {f : Run α → Run β}
    (hf : ∀ run, (f run).region = run.region)
    (hvalue : ∀ a b : Run α, (f a).value = (f b).value → a.value = b.value) :
    Merged (runs.map f) := by
  induction runs with
  | nil => trivial
  | cons a rest ih =>
    cases rest with
    | nil => trivial
    | cons b rest =>
      refine ⟨fun hjoins => h.1 ⟨hvalue a b hjoins.1, ?_⟩, ih h.2⟩
      have hmeets := hjoins.2
      rwa [hf, hf] at hmeets

/-- The runs that have a value. -/
def present (runs : List (Run (Option α))) : List (Run α) :=
  runs.filterMap fun run => run.value.map (Run.mk run.region)

theorem exists_of_mem_present {run : Run α} {runs : List (Run (Option α))}
    (h : run ∈ present runs) : ∃ whole ∈ runs, whole.region = run.region := by
  obtain ⟨whole, hwhole, hrun⟩ := List.mem_filterMap.1 h
  obtain ⟨v, -, rfl⟩ := Option.map_eq_some_iff.1 hrun
  exact ⟨whole, hwhole, rfl⟩

theorem InOrder.present {runs : List (Run (Option α))} (h : InOrder runs) :
    InOrder (present runs) := by
  refine List.Pairwise.filterMap _ (fun a b hab a' ha b' hb => ?_) h
  obtain ⟨_, -, rfl⟩ := Option.map_eq_some_iff.1 ha
  obtain ⟨_, -, rfl⟩ := Option.map_eq_some_iff.1 hb
  exact hab

/-- Where a run without a value stood, there is no value. -/
theorem InOrder.valueAt?_present {runs : List (Run (Option α))} (h : InOrder runs) (c : Nat) :
    valueAt? (Run.present runs) c = (valueAt? runs c).bind id := by
  induction runs with
  | nil => rfl
  | cons run rest ih =>
    have hih := ih (List.pairwise_cons.1 h).2
    unfold Run.present at hih ⊢
    rw [valueAt?_cons]
    cases hv : run.value with
    | none =>
      rw [List.filterMap_cons_none (by rw [hv]; rfl), hih]
      split
      · rename_i hc
        rw [h.valueAt?_eq_none_of_le hc.2]
        rfl
      · rfl
    | some v =>
      rw [List.filterMap_cons_some (by rw [hv]; rfl), valueAt?_cons, hih]
      split <;> rfl

end Run

end ReplicaRing
