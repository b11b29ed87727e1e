/-!
# Binary search for the end of a run

In an array where every element satisfying a test comes before every element failing it, the place
where the test starts to fail is found by halving. The search keeps a range that holds the place;
the range at least halves at every step, so as many steps as the array has elements are more than
enough.
-/

namespace ReplicaRing

variable {α : Type}

/-- The first place in the range from `low` to `high` whose element fails the test, or `high`. -/
def firstFailingBetween (p : α → Bool) (xs : Array α) : Nat → Nat → Nat → Nat
  | 0, low, _ => low
  | steps + 1, low, high =>
    if low < high then
      let middle := (low + high) / 2
      if xs[middle]?.any p then firstFailingBetween p xs steps (middle + 1) high
      else firstFailingBetween p xs steps low middle
    else low

/-- The first place whose element fails the test, or the size of the array. -/
def firstFailing (p : α → Bool) (xs : Array α) : Nat :=
  firstFailingBetween p xs xs.size 0 xs.size

/-- The range of the search shrinks to one place, before which the test holds and from which on it
fails. -/
theorem firstFailingBetween_spec {p : α → Bool} {xs : Array α}
    (sorted : ∀ i j : Nat, i ≤ j → xs[j]?.any p = true → xs[i]?.any p = true) {steps low high : Nat}
    (hsteps : high - low ≤ steps) (hle : low ≤ high)
    (hlow : ∀ i, i < low → xs[i]?.any p = true) (hhigh : ∀ i, high ≤ i → xs[i]?.any p = false) :
    (∀ i, i < firstFailingBetween p xs steps low high → xs[i]?.any p = true) ∧
      ∀ i, firstFailingBetween p xs steps low high ≤ i → xs[i]?.any p = false := by
  induction steps generalizing low high with
  | zero =>
    -- No step is left only when the range is down to one place.
    have : low = high := by omega
    subst this
    exact ⟨hlow, hhigh⟩
  | succ steps ih =>
    rw [firstFailingBetween]
    split
    · rename_i hlt
      dsimp only
      split
      · rename_i hmid
        -- The middle passes, and so does everything before it.
        exact ih (by omega) (by omega)
          (fun i hi => sorted i ((low + high) / 2) (by omega) hmid) hhigh
      · rename_i hmid
        -- The middle fails, and so does everything after it.
        refine ih (by omega) (by omega) hlow fun i hi => ?_
        cases h : xs[i]?.any p with
        | false => rfl
        | true => exact absurd (sorted _ i hi h) hmid
    · have : low = high := by omega
      subst this
      exact ⟨hlow, hhigh⟩

/-- Binary search finds the place where the test starts to fail. -/
theorem firstFailing_spec {p : α → Bool} {xs : Array α}
    (sorted : ∀ i j : Nat, i ≤ j → xs[j]?.any p = true → xs[i]?.any p = true) :
    (∀ i, i < firstFailing p xs → xs[i]?.any p = true) ∧
      ∀ i, firstFailing p xs ≤ i → xs[i]?.any p = false :=
  firstFailingBetween_spec sorted (Nat.le_of_eq (Nat.sub_zero _)) (Nat.zero_le _)
    (fun _ h => absurd h (Nat.not_lt_zero _))
    fun i h => by rw [Array.getElem?_eq_none h]; rfl

end ReplicaRing
