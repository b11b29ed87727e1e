/-!
# Stable sorting

Sorting by insertion from the right. A list that is in order already, which is what rings nearly
always hand over, costs one comparison for each of its elements, and elements that compare equal
keep their order. The recursion is on the list, so closed instances evaluate.
-/

namespace ReplicaRing

variable {α : Type}

/-- Puts `x` before the first element that it does not have to follow. -/
def insertBy (le : α → α → Bool) (x : α) : List α → List α
  | [] => [x]
  | y :: ys => if le x y then x :: y :: ys else y :: insertBy le x ys

/-- The elements in the order `le`, equal ones in the order in which they came. -/
def sortBy (le : α → α → Bool) (xs : List α) : List α :=
  xs.foldr (insertBy le) []

theorem insertBy_perm (le : α → α → Bool) (x : α) (xs : List α) :
    (insertBy le x xs).Perm (x :: xs) := by
  induction xs with
  | nil => exact List.Perm.refl _
  | cons y ys ih =>
    rw [insertBy]
    split
    · exact List.Perm.refl _
    · exact (ih.cons y).trans (List.Perm.swap x y ys)

theorem sortBy_perm (le : α → α → Bool) (xs : List α) : (sortBy le xs).Perm xs := by
  induction xs with
  | nil => exact List.Perm.refl _
  | cons x xs ih => exact (insertBy_perm le x _).trans (ih.cons x)

theorem mem_insertBy {le : α → α → Bool} {x a : α} {xs : List α} :
    a ∈ insertBy le x xs ↔ a = x ∨ a ∈ xs := by
  rw [(insertBy_perm le x xs).mem_iff, List.mem_cons]

theorem mem_sortBy {le : α → α → Bool} {a : α} {xs : List α} : a ∈ sortBy le xs ↔ a ∈ xs :=
  (sortBy_perm le xs).mem_iff

/-- Inserting keeps a list in order, if any two elements compare and the order is transitive. -/
theorem pairwise_insertBy {le : α → α → Bool} (total : ∀ a b, le a b = true ∨ le b a = true)
    (trans : ∀ a b c, le a b = true → le b c = true → le a c = true) (x : α) {xs : List α}
    (h : xs.Pairwise (le · · = true)) : (insertBy le x xs).Pairwise (le · · = true) := by
  induction xs with
  | nil => simp [insertBy]
  | cons y ys ih =>
    rw [List.pairwise_cons] at h
    rw [insertBy]
    split
    · rename_i hxy
      refine List.pairwise_cons.2 ⟨fun a ha => ?_, List.pairwise_cons.2 h⟩
      rcases List.mem_cons.1 ha with rfl | ha
      · exact hxy
      · exact trans _ _ _ hxy (h.1 a ha)
    · rename_i hxy
      refine List.pairwise_cons.2 ⟨fun a ha => ?_, ih h.2⟩
      rcases mem_insertBy.1 ha with rfl | ha
      · exact (total _ _).resolve_left hxy
      · exact h.1 a ha

theorem pairwise_sortBy {le : α → α → Bool} (total : ∀ a b, le a b = true ∨ le b a = true)
    (trans : ∀ a b c, le a b = true → le b c = true → le a c = true) (xs : List α) :
    (sortBy le xs).Pairwise (le · · = true) := by
  induction xs with
  | nil => exact List.Pairwise.nil
  | cons x xs ih => exact pairwise_insertBy total trans x ih

/-- Sorting leaves a list alone that is in order already. -/
theorem sortBy_of_pairwise {le : α → α → Bool} {xs : List α}
    (h : xs.Pairwise (le · · = true)) : sortBy le xs = xs := by
  induction xs with
  | nil => rfl
  | cons x xs ih =>
    rw [List.pairwise_cons] at h
    have hs : sortBy le (x :: xs) = insertBy le x xs := by
      rw [sortBy, List.foldr_cons, ← sortBy, ih h.2]
    rw [hs]
    cases xs with
    | nil => rfl
    | cons y ys => rw [insertBy, if_pos (h.1 y (List.mem_cons_self ..))]

end ReplicaRing
