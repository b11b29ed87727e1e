import Mathlib.Logic.Function.Iterate
import ReplicaRing.Proofs.Quotas

/-!
# Rounds come to an end

Both loops of a division go round until a round changes nothing. The number of rounds is bounded
beforehand, and the bound never cuts a loop short: a round that changes anything pins another
claimant (`comesToRest_settle`) or closes another unit (`Ledger.comesToRest_close`), so the loop has
come to rest when the bound is used up.
-/

namespace ReplicaRing.Quota

/-! ### Loops with a gap that closes -/

section

variable {σ : Type} {round : σ → σ} {gap : σ → Nat} {a b : σ}

/-- After at most `gap a` rounds, each of which makes the gap smaller, `a` has become `b`, and
another round would leave `b` as it is. -/
def ComesToRest (round : σ → σ) (gap : σ → Nat) (a b : σ) : Prop :=
  ∃ n ≤ gap a, round^[n] a = b ∧ round b = b ∧
    ∀ k < n, gap (round^[k + 1] a) < gap (round^[k] a)

/-- One round more at the front. -/
theorem ComesToRest.cons (hlt : gap (round a) < gap a) (h : ComesToRest round gap (round a) b) :
    ComesToRest round gap a b := by
  obtain ⟨n, hn, hrounds, hrest, hgap⟩ := h
  refine ⟨n + 1, by omega, hrounds, hrest, fun k hk => ?_⟩
  cases k with
  | zero => exact hlt
  | succ k => exact hgap k (by omega)

/-- What every round keeps is true in the end. -/
theorem ComesToRest.keeps (h : ComesToRest round gap a b) {P : σ → Prop}
    (hround : ∀ s, P s → P (round s)) (ha : P a) : P b := by
  obtain ⟨n, -, rfl, -⟩ := h
  induction n generalizing a with
  | zero => exact ha
  | succ n ih => exact ih (hround a ha)

/-- A loop that stops when a round changes nothing, and whose other rounds make the gap smaller,
comes to rest within as many rounds as the gap is large. -/
theorem comesToRest_of_loop (loop : Nat → σ → σ) (hzero : ∀ s, loop 0 s = s)
    (hsucc : ∀ n s, (loop (n + 1) s = s ∧ round s = s) ∨
      (loop (n + 1) s = loop n (round s) ∧ gap (round s) < gap s))
    {n : Nat} (h : gap a ≤ n) : ComesToRest round gap a (loop n a) := by
  have hstill : ∀ s, round s = s → ComesToRest round gap s s := by
    intro s hs
    exact ⟨0, Nat.zero_le _, rfl, hs, fun k hk => absurd hk (Nat.not_lt_zero k)⟩
  induction n generalizing a with
  | zero =>
    rw [hzero]
    rcases hsucc 0 a with ⟨-, hround⟩ | ⟨-, hlt⟩
    · exact hstill a hround
    · omega
  | succ n ih =>
    rcases hsucc n a with ⟨hloop, hround⟩ | ⟨hloop, hlt⟩
    · rw [hloop]
      exact hstill a hround
    · rw [hloop]
      apply ComesToRest.cons hlt
      exact ih (by omega)

end

/-! ### Pinning -/

/-- The number of claimants whose quota is still open. -/
def unpinned (claimants : List Claimant) : Nat :=
  claimants.countP fun c => !c.pinned

theorem unpinned_cons (c : Claimant) (rest : List Claimant) :
    unpinned (c :: rest) = unpinned rest + if c.pinned then 0 else 1 := by
  unfold unpinned
  rw [List.countP_cons]
  cases c.pinned <;> rfl

/-- Pinning more claimants changes nothing, or fewer are left open. -/
theorem map_exceeds_eq_or_unpinned_lt (pool : Pool) (capacity : Nat) (claimants : List Claimant) :
    let next := claimants.map fun c => { c with pinned := c.exceeds pool capacity }
    unpinned next ≤ unpinned claimants ∧ (next = claimants ∨ unpinned next < unpinned claimants) := by
  induction claimants with
  | nil => exact ⟨Nat.le_refl _, Or.inl rfl⟩
  | cons c rest ih =>
    obtain ⟨weight, pinned⟩ := c
    obtain ⟨hle, hcases⟩ := ih
    simp only [List.map_cons, unpinned_cons]
    cases pinned with
    | true =>
      -- A claimant that is pinned stays pinned.
      simp only [Claimant.exceeds, Bool.true_or, List.cons.injEq, true_and] at hle hcases ⊢
      exact ⟨by omega, hcases.imp id (by omega)⟩
    | false =>
      cases hexceeds : Claimant.exceeds pool capacity ⟨weight, false⟩ with
      | true => exact ⟨by simp; omega, Or.inr (by simp; omega)⟩
      | false => exact ⟨by simpa using hle, by simpa using hcases⟩

theorem pinRound_eq_or_unpinned_lt (total capacity : Nat) (claimants : List Claimant) :
    pinRound total capacity claimants = claimants ∨
      unpinned (pinRound total capacity claimants) < unpinned claimants :=
  (map_exceeds_eq_or_unpinned_lt (poolOf total capacity claimants) capacity claimants).2

theorem unpinned_start (weights : List Float) :
    unpinned (weights.map fun w => ⟨w, false⟩) = weights.length := by
  induction weights with
  | nil => rfl
  | cons w rest ih => rw [List.map_cons, unpinned_cons, ih, List.length_cons]; rfl

/-- The rounds of pinning end, each but the last with a claimant more that is pinned. -/
theorem comesToRest_settle (total capacity : Nat) (weights : List Float) :
    ComesToRest (pinRound total capacity) unpinned (weights.map fun w => ⟨w, false⟩)
      (settle total capacity weights) := by
  apply comesToRest_of_loop (settleWithin total capacity) (fun _ => rfl)
  · intro n claimants
    rw [settleWithin]
    by_cases h : pinRound total capacity claimants = claimants
    · exact Or.inl ⟨if_pos h, h⟩
    · exact Or.inr ⟨if_neg h, (pinRound_eq_or_unpinned_lt ..).resolve_left h⟩
  · exact Nat.le_of_eq (unpinned_start weights)

/-! ### Closing the account -/

namespace Ledger

variable {move : Ledger → Nat → Ledger}

/-- A move that does nothing or closes a unit. -/
def Closing (move : Ledger → Nat → Ledger) : Prop :=
  ∀ l i, move l i = l ∨ (move l i).remaining < l.remaining

theorem closing_give (capacity : Nat) : Closing (give capacity) := by
  intro l i
  unfold give
  split
  · rename_i h
    exact Or.inr (Nat.sub_lt h.1 Nat.one_pos)
  · exact Or.inl rfl

theorem closing_take : Closing take := by
  intro l i
  unfold take
  split
  · rename_i h
    exact Or.inr (Nat.sub_lt h.1 Nat.one_pos)
  · exact Or.inl rfl

/-- A whole round of such moves does nothing or closes a unit, too. -/
theorem Closing.round (hmove : Closing move) (order : List Nat) (l : Ledger) :
    order.foldl move l = l ∨ (order.foldl move l).remaining < l.remaining := by
  induction order generalizing l with
  | nil => exact Or.inl rfl
  | cons i order ih =>
    rw [List.foldl_cons]
    rcases hmove l i with hstays | hlt
    · rw [hstays]
      exact ih l
    · rcases ih (move l i) with hstays | hless
      · rw [hstays]
        exact Or.inr hlt
      · exact Or.inr (by omega)

/-- The rounds over an order end, each but the last with fewer units open. -/
theorem comesToRest_close (hmove : Closing move) (order : List Nat) (l : Ledger) :
    ComesToRest (order.foldl move) remaining l (l.close move order) := by
  apply comesToRest_of_loop (closeWithin move order) (fun _ => rfl)
  · intro n l
    rw [closeWithin]
    rcases hmove.round order l with hstays | hlt
    · exact Or.inl ⟨if_pos (by rw [hstays]), hstays⟩
    · exact Or.inr ⟨if_neg (by omega), hlt⟩
  · exact Nat.le_refl _

end Ledger

end ReplicaRing.Quota
