import ReplicaRing.Placement.Quota

/-!
# Quotas add up

Whatever the shares come out as, the quotas that `Quota.divide` gives are one for each weight, stay
within the capacity and sum to the total (`divide_eq_ok`). The shares are doubles, so none of this
can rest on them: it is the ledger that keeps the account. Giving a unit leaves the sum of the
quotas and the open units as it was (`Ledger.sumOf_give`), taking one their difference
(`Ledger.sumOf_take`), and rounds of either keep whatever a single move keeps
(`Ledger.close_induction`).
-/

namespace ReplicaRing.Quota

/-! ### Single moves -/

theorem sumOf_modify {quotas : List Nat} {i x : Nat} (h : quotas[i]? = some x) (f : Nat → Nat) :
    sumOf (quotas.modify i f) + x = sumOf quotas + f x := by
  induction quotas generalizing i with
  | nil => simp at h
  | cons y rest ih =>
    cases i with
    | zero =>
      obtain rfl : y = x := by simpa using h
      simp only [List.modify_zero_cons, sumOf_cons]
      omega
    | succ i =>
      have := ih (i := i) (by simpa using h)
      simp only [List.modify_succ_cons, sumOf_cons]
      omega

/-- Giving moves a unit from the open ones to a quota, or does nothing. -/
theorem Ledger.sumOf_give (capacity : Nat) (l : Ledger) (i : Nat) :
    sumOf (l.give capacity i).quotas + (l.give capacity i).remaining =
      sumOf l.quotas + l.remaining := by
  unfold Ledger.give
  split
  · rename_i h
    obtain ⟨x, hx, -⟩ := (Option.any_eq_true _ _).1 h.2
    have := sumOf_modify hx (· + 1)
    dsimp only
    omega
  · rfl

/-- Taking removes a unit from a quota and from the ones too many, or does nothing. -/
theorem Ledger.sumOf_take (l : Ledger) (i : Nat) :
    sumOf (l.take i).quotas + l.remaining = sumOf l.quotas + (l.take i).remaining := by
  unfold Ledger.take
  split
  · rename_i h
    obtain ⟨x, hx, hpos⟩ := (Option.any_eq_true _ _).1 h.2
    have := sumOf_modify hx (· - 1)
    have : 0 < x := by simpa using hpos
    dsimp only
    omega
  · rfl

/-- A single quota that changes stays within a bound, if the change keeps it there. -/
theorem forall_mem_modify {quotas : List Nat} {i bound : Nat} {f : Nat → Nat}
    (h : ∀ x ∈ quotas, x ≤ bound) (hf : ∀ x, quotas[i]? = some x → f x ≤ bound) :
    ∀ x ∈ quotas.modify i f, x ≤ bound := by
  intro x hx
  obtain ⟨j, hj⟩ := List.mem_iff_getElem?.1 hx
  rw [List.getElem?_modify] at hj
  obtain ⟨y, hy, rfl⟩ := Option.map_eq_some_iff.1 hj
  split
  · rename_i hij
    subst hij
    exact hf y hy
  · exact h y (List.mem_of_getElem? hy)

theorem Ledger.le_give {capacity : Nat} {l : Ledger} (h : ∀ x ∈ l.quotas, x ≤ capacity) (i : Nat) :
    ∀ x ∈ (l.give capacity i).quotas, x ≤ capacity := by
  unfold Ledger.give
  split
  · rename_i hi
    refine forall_mem_modify h fun x hx => ?_
    have hroom := hi.2
    rw [hx] at hroom
    exact of_decide_eq_true hroom
  · exact h

theorem Ledger.le_take {capacity : Nat} {l : Ledger} (h : ∀ x ∈ l.quotas, x ≤ capacity) (i : Nat) :
    ∀ x ∈ (l.take i).quotas, x ≤ capacity := by
  unfold Ledger.take
  split
  · refine forall_mem_modify h fun x hx => ?_
    have := h x (List.mem_of_getElem? hx)
    omega
  · exact h

theorem Ledger.length_give (capacity : Nat) (l : Ledger) (i : Nat) :
    (l.give capacity i).quotas.length = l.quotas.length := by
  unfold Ledger.give
  split <;> simp

theorem Ledger.length_take (l : Ledger) (i : Nat) :
    (l.take i).quotas.length = l.quotas.length := by
  unfold Ledger.take
  split <;> simp

/-! ### Rounds -/

/-- Rounds keep what every single move keeps. -/
theorem Ledger.close_induction (move : Ledger → Nat → Ledger) (P : Ledger → Prop)
    (hmove : ∀ l i, P l → P (move l i)) (order : List Nat) {l : Ledger} (h : P l) :
    P (Ledger.close move order l) := by
  have hround : ∀ (order : List Nat) (l : Ledger), P l → P (order.foldl move l) := by
    intro order
    induction order with
    | nil => exact fun l h => h
    | cons i order ih => exact fun l h => ih _ (hmove l i h)
  unfold Ledger.close
  generalize l.remaining = rounds
  induction rounds generalizing l with
  | zero => exact h
  | succ rounds ih =>
    rw [Ledger.closeWithin]
    split
    · exact h
    · exact ih (hround order l h)

/-- One quota for each of `n` claimants, none above the capacity. -/
structure Fitting (n capacity : Nat) (quotas : List Nat) : Prop where
  length : quotas.length = n
  le : ∀ x ∈ quotas, x ≤ capacity

/-- What the quotas gain by rounds of giving, the open units lose. -/
theorem Ledger.close_give {n capacity : Nat} {l : Ledger} (h : Fitting n capacity l.quotas)
    (order : List Nat) :
    Fitting n capacity (Ledger.close (Ledger.give capacity) order l).quotas ∧
      sumOf (Ledger.close (Ledger.give capacity) order l).quotas +
        (Ledger.close (Ledger.give capacity) order l).remaining = sumOf l.quotas + l.remaining := by
  refine Ledger.close_induction (Ledger.give capacity) (fun l' => Fitting n capacity l'.quotas ∧
    sumOf l'.quotas + l'.remaining = sumOf l.quotas + l.remaining) ?_ order ⟨h, rfl⟩
  rintro l' i ⟨hfits, hsum⟩
  exact ⟨⟨(l'.length_give capacity i).trans hfits.length, Ledger.le_give hfits.le i⟩,
    (l'.sumOf_give capacity i).trans hsum⟩

/-- What the quotas lose by rounds of taking, the units too many lose. -/
theorem Ledger.close_take {n capacity : Nat} {l : Ledger} (h : Fitting n capacity l.quotas)
    (order : List Nat) :
    Fitting n capacity (Ledger.close Ledger.take order l).quotas ∧
      sumOf (Ledger.close Ledger.take order l).quotas + l.remaining =
        sumOf l.quotas + (Ledger.close Ledger.take order l).remaining := by
  refine Ledger.close_induction Ledger.take (fun l' => Fitting n capacity l'.quotas ∧
    sumOf l'.quotas + l.remaining = sumOf l.quotas + l'.remaining) ?_ order ⟨h, rfl⟩
  rintro l' i ⟨hfits, hsum⟩
  refine ⟨⟨(l'.length_take i).trans hfits.length, Ledger.le_take hfits.le i⟩, ?_⟩
  have := l'.sumOf_take i
  omega

/-! ### The division -/

theorem length_settle (total capacity : Nat) (weights : List Float) :
    (settle total capacity weights).length = weights.length := by
  have hrounds : ∀ (rounds : Nat) (claimants : List Claimant),
      (settleWithin total capacity rounds claimants).length = claimants.length := by
    intro rounds
    induction rounds with
    | zero => exact fun _ => rfl
    | succ rounds ih =>
      intro claimants
      rw [settleWithin]
      split
      · rfl
      · rw [ih, pinRound, List.length_map]
  rw [settle, hrounds, List.length_map]

/-- Before any unit is moved, every quota is within the capacity. -/
theorem floorQuota_le (pool : Pool) (capacity : Nat) (c : Claimant) :
    c.floorQuota pool capacity ≤ capacity := by
  unfold Claimant.floorQuota
  split
  · exact Nat.le_refl _
  · exact Nat.min_le_right _ _

theorem fitting_floorQuota (pool : Pool) (total capacity : Nat) (weights : List Float) :
    Fitting weights.length capacity
      ((settle total capacity weights).map (Claimant.floorQuota pool capacity)) where
  length := by rw [List.length_map, length_settle]
  le := by
    intro x hx
    obtain ⟨c, -, rfl⟩ := List.mem_map.1 hx
    exact floorQuota_le pool capacity c

/-- A division gives one quota for each weight, none above the capacity, and hands out the whole
total. -/
theorem divide_eq_ok {weights : List Float} {total capacity : Nat} {quotas : List Nat}
    (h : divide weights total capacity = .ok quotas) :
    Fitting weights.length capacity quotas ∧ sumOf quotas = total := by
  unfold divide at h
  split at h
  · cases h
  · dsimp only at h
    generalize hclaimants : settle total capacity weights = claimants at h
    generalize poolOf total capacity claimants = pool at h
    generalize roundingOrder pool claimants = order at h
    have hfits := fitting_floorQuota pool total capacity weights
    rw [hclaimants] at hfits
    generalize claimants.map (Claimant.floorQuota pool capacity) = floors at h hfits
    split at h
    · obtain ⟨hclosed, hsum⟩ := Ledger.close_give (l := ⟨floors, total - sumOf floors⟩) hfits order
      split at h
      · obtain rfl := Except.ok.inj h
        dsimp only at hsum
        exact ⟨hclosed, by omega⟩
      · cases h
    · obtain ⟨hclosed, hsum⟩ :=
        Ledger.close_take (l := ⟨floors, sumOf floors - total⟩) hfits order.reverse
      split at h
      · obtain rfl := Except.ok.inj h
        dsimp only at hsum
        exact ⟨hclosed, by omega⟩
      · cases h

end ReplicaRing.Quota
