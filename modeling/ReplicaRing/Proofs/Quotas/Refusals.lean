import ReplicaRing.Proofs.Quotas.Fairness

/-!
# When a division fails

Where there is room for the total, a division finds a place for every unit, and it can take back all
units too many but those of the members that are pinned at the capacity: what is pinned stays. So it
fails exactly when more units are pinned than there are, and then by that many
(`divide_eq_error_iff`).
-/

namespace ReplicaRing.Quota

variable {weights : List Float} {total capacity : Nat} {claimants : List Claimant}
  {quotas : List Nat}

/-! ### Where rounds come to -/

/-- Rounds leave the quotas outside their order alone, and they end with no unit open or with no
quota in the order that can move. -/
theorem Ledger.Shifts.close_spec {f : Nat → Nat} {move : Ledger → Nat → Ledger}
    (hmove : Shifts f move) {order : List Nat} (horder : order.Nodup) (l : Ledger) :
    (∀ i ∉ order, (l.close move order).quotas[i]? = l.quotas[i]?) ∧
      ((l.close move order).remaining = 0 ∨
        ∀ i ∈ order, ∀ x, (l.close move order).quotas[i]? = some x → f x = x) := by
  have hrounds := comesToRest_close hmove.closing order l
  constructor
  · intro i hi
    refine hrounds.keeps (P := fun l' => l'.quotas[i]? = l.quotas[i]?) (fun l' hl' => ?_) rfl
    rcases hmove.round horder l' i with ⟨hsame, -⟩ | ⟨-, hmem⟩
    · exact hsame.trans hl'
    · exact absurd hmem hi
  · obtain ⟨-, -, -, hrest, -⟩ := hrounds
    refine or_iff_not_imp_left.2 fun hopen i hi x hx => ?_
    have hround := hmove.round horder (l.close move order) i
    rw [show order.foldl move (l.close move order) = l.close move order from hrest] at hround
    rcases hround with ⟨-, hclosed⟩ | ⟨hshift, -⟩
    · exact absurd (hclosed hi) hopen
    · rw [hx] at hshift
      exact (Option.some.inj hshift).symm

/-! ### Pinned quotas -/

/-- Every pinned claimant has the capacity for its quota. -/
structure Reserves (capacity : Nat) (claimants : List Claimant) (quotas : List Nat) : Prop where
  length : quotas.length = claimants.length
  pinned : ∀ (i : Nat) (c : Claimant), claimants[i]? = some c → c.pinned = true →
    quotas[i]? = some capacity

namespace Reserves

theorem tail {c : Claimant} {rest : List Claimant} {x : Nat} {xs : List Nat}
    (h : Reserves capacity (c :: rest) (x :: xs)) : Reserves capacity rest xs :=
  ⟨Nat.succ.inj h.length, fun i => h.pinned (i + 1)⟩

/-- What the quotas come to beyond the pinned ones, they come to at the open places. -/
theorem le_sumOf (h : Reserves capacity claimants quotas) :
    claimants.countP Claimant.pinned * capacity ≤ sumOf quotas := by
  induction claimants generalizing quotas with
  | nil => simp
  | cons c rest ih =>
    cases quotas with
    | nil => cases h.length
    | cons x xs =>
      have hrest := ih h.tail
      rw [List.countP_cons, sumOf_cons]
      cases hpinned : c.pinned with
      | false =>
        rw [if_neg Bool.false_ne_true, Nat.add_zero]
        omega
      | true =>
        obtain rfl : x = capacity := Option.some.inj (h.pinned 0 c rfl hpinned)
        rw [if_pos rfl, Nat.succ_mul]
        omega

theorem sumOf_eq (h : Reserves capacity claimants quotas)
    (hopen : ∀ (i : Nat) (c : Claimant), claimants[i]? = some c → c.pinned = false →
      ∀ x, quotas[i]? = some x → x = 0) :
    sumOf quotas = claimants.countP Claimant.pinned * capacity := by
  induction claimants generalizing quotas with
  | nil =>
    obtain rfl := List.length_eq_zero_iff.1 h.length
    simp
  | cons c rest ih =>
    cases quotas with
    | nil => cases h.length
    | cons x xs =>
      have hrest := ih h.tail fun i => hopen (i + 1)
      rw [List.countP_cons, sumOf_cons, hrest]
      cases hpinned : c.pinned with
      | false =>
        obtain rfl := hopen 0 c rfl hpinned x rfl
        simp
      | true =>
        obtain rfl : x = capacity := Option.some.inj (h.pinned 0 c rfl hpinned)
        rw [if_pos rfl, Nat.succ_mul, Nat.add_comm]

/-- The rounds over the open claimants keep what is pinned. -/
theorem close {f : Nat → Nat} {move : Ledger → Nat → Ledger} (hmove : Ledger.Shifts f move)
    {pool : Pool} {order : List Nat} (horder : order.Perm (roundingOrder pool claimants))
    {l : Ledger} (h : Reserves capacity claimants l.quotas)
    (hlength : (l.close move order).quotas.length = l.quotas.length) :
    Reserves capacity claimants (l.close move order).quotas where
  length := hlength.trans h.length
  pinned i c hc hpinned := by
    have hnot : i ∉ order := by
      rw [horder.mem_iff, mem_roundingOrder]
      rintro ⟨c', hc', hopen⟩
      obtain rfl := Option.some.inj (hc.symm.trans hc')
      rw [hpinned] at hopen
      cases hopen
    have hnodup := horder.nodup_iff.2 (nodup_roundingOrder pool claimants)
    rw [(hmove.close_spec hnodup l).1 i hnot]
    exact h.pinned i c hc hpinned

end Reserves

theorem reserves_floorQuota (pool : Pool) (capacity : Nat) (claimants : List Claimant) :
    Reserves capacity claimants (claimants.map (Claimant.floorQuota pool capacity)) where
  length := List.length_map _
  pinned i c hc hpinned := by
    rw [List.getElem?_map, hc, Option.map_some, Claimant.floorQuota, if_pos hpinned]

theorem sumOf_of_forall_eq (h : ∀ x ∈ quotas, x = capacity) :
    sumOf quotas = capacity * quotas.length := by
  induction quotas with
  | nil => rfl
  | cons x rest ih =>
    rw [sumOf_cons, ih fun y hy => h y (List.mem_cons_of_mem _ hy), h x (List.mem_cons_self ..),
      List.length_cons, Nat.mul_succ, Nat.add_comm]

/-! ### The division -/

/-- With room for the total, rounds of giving place every unit: they go on until every open quota
is at the capacity, and the others are there already. -/
theorem remaining_close_give (pool : Pool) {l : Ledger}
    (hfits : Fitting claimants.length capacity l.quotas)
    (h : Reserves capacity claimants l.quotas)
    (hroom : sumOf l.quotas + l.remaining ≤ capacity * claimants.length) :
    (l.close (Ledger.give capacity) (roundingOrder pool claimants)).remaining = 0 := by
  obtain ⟨hclosed, hsum⟩ := Ledger.close_give hfits (roundingOrder pool claimants)
  have hmoves := Ledger.shifts_give capacity
  have hreserves := h.close hmoves (List.Perm.refl (roundingOrder pool claimants))
    (hclosed.length.trans hfits.length.symm)
  obtain ⟨-, hend⟩ := hmoves.close_spec (nodup_roundingOrder pool claimants) l
  by_contra hopen
  -- Rounds that end with units left have no open quota below the capacity.
  have hfull := hend.resolve_left hopen
  generalize l.close (Ledger.give capacity) (roundingOrder pool claimants) = last at *
  have hall : ∀ x ∈ last.quotas, x = capacity := by
    intro x hx
    obtain ⟨i, hi⟩ := List.mem_iff_getElem?.1 hx
    have hlt : i < claimants.length := by
      rw [← hclosed.length]
      exact (List.getElem?_eq_some_iff.1 hi).1
    have hc := List.getElem?_eq_getElem hlt
    cases hpinned : claimants[i].pinned with
    | true => exact Option.some.inj (hi.symm.trans (hreserves.pinned i _ hc hpinned))
    | false =>
      have hstays := hfull i (mem_roundingOrder.2 ⟨_, hc, hpinned⟩) x hi
      have hle := hclosed.le x hx
      split at hstays <;> omega
  have htotal := sumOf_of_forall_eq hall
  rw [hclosed.length] at htotal
  omega

/-- Rounds of taking end with a unit too many exactly if more are pinned than there should be. -/
theorem remaining_close_take (pool : Pool) {l : Ledger}
    (hfits : Fitting claimants.length capacity l.quotas)
    (h : Reserves capacity claimants l.quotas) (hsum : sumOf l.quotas = total + l.remaining) :
    (l.close Ledger.take (roundingOrder pool claimants).reverse).remaining =
      claimants.countP Claimant.pinned * capacity - total := by
  have horder := List.reverse_perm (roundingOrder pool claimants)
  obtain ⟨hclosed, htaken⟩ := Ledger.close_take hfits (roundingOrder pool claimants).reverse
  have hmoves := Ledger.shifts_take
  have hreserves := h.close hmoves horder (hclosed.length.trans hfits.length.symm)
  obtain ⟨-, hend⟩ := hmoves.close_spec
    (horder.nodup_iff.2 (nodup_roundingOrder pool claimants)) l
  have hle := hreserves.le_sumOf
  rcases hend with hzero | hempty
  · omega
  · -- Nothing is left to take but what is pinned.
    have heq := hreserves.sumOf_eq fun i c hc hopen x hx => by
      have hmem : i ∈ (roundingOrder pool claimants).reverse :=
        horder.mem_iff.2 (mem_roundingOrder.2 ⟨c, hc, hopen⟩)
      have hstays := hempty i hmem x hx
      omega
    omega

/-- With room for the total, a division fails exactly if more is pinned than there is to divide. -/
theorem divide_eq_error_iff (hroom : total ≤ capacity * weights.length)
    {defect : PlacementDefect} :
    divide weights total capacity = .error defect ↔
      total < (settle total capacity weights).countP Claimant.pinned * capacity ∧
        defect = .overassignedUnits
          ((settle total capacity weights).countP Claimant.pinned * capacity - total) := by
  unfold divide
  rw [if_neg (Nat.not_lt.2 hroom)]
  have hlength := length_settle total capacity weights
  have hfits (pool : Pool) := fitting_floorQuota pool total capacity weights
  dsimp only
  generalize settle total capacity weights = claimants at hlength hfits ⊢
  generalize poolOf total capacity claimants = pool
  have hreserves := reserves_floorQuota pool capacity claimants
  have hfits := hfits pool
  rw [← hlength] at hfits hroom
  generalize claimants.map (Claimant.floorQuota pool capacity) = floors at hreserves hfits ⊢
  split
  · rename_i hlt
    have hzero := remaining_close_give pool (l := ⟨floors, total - sumOf floors⟩) hfits hreserves
      (by dsimp only; omega)
    have hle := hreserves.le_sumOf
    rw [if_pos hzero]
    constructor
    · rintro ⟨⟩
    · rintro ⟨hmore, -⟩
      omega
  · rename_i hge
    have hsum : sumOf floors = total + (sumOf floors - total) := by omega
    have hremaining := remaining_close_take pool (l := ⟨floors, sumOf floors - total⟩) hfits
      hreserves hsum
    rw [hremaining]
    split
    · constructor
      · rintro ⟨⟩
      · rintro ⟨hmore, -⟩
        omega
    · rw [Except.error.injEq, eq_comm]
      constructor
      · exact fun heq => ⟨by omega, heq⟩
      · exact And.right

end ReplicaRing.Quota
