import Mathlib.Data.List.Nodup
import ReplicaRing.Proofs.Quotas.Rounds

/-!
# Equal weights get nearly equal quotas

Two members of one weight get quotas that differ by at most one unit, whatever the doubles did to
their shares (`near_of_divide`). Members of one weight are pinned in the same round or never, have
the same share, and start with the same quota. A round over an order changes the quota of every
member in it in the same way, as long as units are open (`Ledger.Shifts.round`): so the two quotas
stay level, until the units run out between the two places, and from then on nothing moves any more.

`divide_evenly` puts this together with what rounds come to and with what the quotas add up to.
-/

namespace ReplicaRing.Quota

/-! ### Members of one weight -/

/-- Claimants that are alike before the rounds of pinning are alike afterwards. -/
theorem getElem?_settle_congr {weights : List Float} {total capacity i j : Nat}
    (h : weights[i]? = weights[j]?) :
    (settle total capacity weights)[i]? = (settle total capacity weights)[j]? := by
  apply (comesToRest_settle total capacity weights).keeps
    (P := fun claimants => claimants[i]? = claimants[j]?)
  · intro claimants hlike
    unfold pinRound
    simp only [List.getElem?_map, hlike]
  · simp only [List.getElem?_map, h]

/-- The places in the order of rounding are those of the claimants that are not pinned. -/
theorem mem_roundingOrder {pool : Pool} {claimants : List Claimant} {i : Nat} :
    i ∈ roundingOrder pool claimants ↔ ∃ c, claimants[i]? = some c ∧ c.pinned = false := by
  unfold roundingOrder
  simp only [List.mem_map, mem_sortBy, List.mem_filter, Prod.exists,
    List.mk_mem_zipIdx_iff_getElem?]
  constructor
  · rintro ⟨_, _, ⟨c, k, ⟨hc, hopen⟩, heq⟩, rfl⟩
    obtain ⟨-, rfl⟩ := Prod.mk.inj heq
    exact ⟨c, hc, by simpa using hopen⟩
  · rintro ⟨c, hc, hopen⟩
    exact ⟨_, i, ⟨c, i, ⟨hc, by simp [hopen]⟩, rfl⟩, rfl⟩

theorem nodup_roundingOrder (pool : Pool) (claimants : List Claimant) :
    (roundingOrder pool claimants).Nodup := by
  unfold roundingOrder
  rw [((sortBy_perm _ _).map Prod.snd).nodup_iff, List.map_map]
  show ((claimants.zipIdx.filter _).map Prod.snd).Nodup
  apply List.Nodup.sublist (List.filter_sublist.map Prod.snd)
  rw [List.zipIdx_map_snd]
  exact List.nodup_range'

/-! ### Level and nearly level quotas -/

/-- The quotas at two places, where there are any, differ by at most one. -/
def Near (quotas : List Nat) (i j : Nat) : Prop :=
  ∀ x y, quotas[i]? = some x → quotas[j]? = some y → x ≤ y + 1 ∧ y ≤ x + 1

theorem near_of_eq {quotas : List Nat} {i j : Nat} (h : quotas[i]? = quotas[j]?) :
    Near quotas i j := by
  intro x y hx hy
  rw [h, hy] at hx
  obtain rfl := Option.some.inj hx
  omega

namespace Ledger

variable {f : Nat → Nat} {move : Ledger → Nat → Ledger}

/-- Moves that close units, each by changing the quota at its place by `f`. -/
structure Shifts (f : Nat → Nat) (move : Ledger → Nat → Ledger) : Prop where
  closing : Closing move
  quotas : ∀ l i, 0 < l.remaining → (move l i).quotas = l.quotas.modify i f

theorem modify_eq_self {xs : List Nat} {i : Nat} (h : ∀ x, xs[i]? = some x → f x = x) :
    xs.modify i f = xs := by
  refine List.ext_getElem? fun k => ?_
  rw [List.getElem?_modify]
  by_cases hk : i = k
  · subst hk
    cases hx : xs[i]? with
    | none => rfl
    | some x => simp [h x hx]
  · simp [hk]

theorem shifts_give (capacity : Nat) :
    Shifts (fun x => if x < capacity then x + 1 else x) (give capacity) where
  closing := closing_give capacity
  quotas l i hopen := by
    unfold give
    split
    · rename_i h
      refine List.ext_getElem? fun k => ?_
      rw [List.getElem?_modify, List.getElem?_modify]
      by_cases hk : i = k
      · subst hk
        obtain ⟨x, hx, hroom⟩ := (Option.any_eq_true _ _).1 h.2
        simp [hx, of_decide_eq_true hroom]
      · simp [hk]
    · rename_i h
      refine (modify_eq_self fun x hx => if_neg fun hroom => h ⟨hopen, ?_⟩).symm
      rw [hx]
      exact decide_eq_true hroom

theorem shifts_take : Shifts (fun x => x - 1) take where
  closing := closing_take
  quotas l i hopen := by
    unfold take
    split
    · rfl
    · rename_i h
      refine (modify_eq_self fun x hx => ?_).symm
      by_contra hne
      apply h
      rw [hx]
      exact ⟨hopen, decide_eq_true (by omega)⟩

/-- A round over an order without repeats changes the quota at each of its places once, unless no
unit is open any more in the end, and it changes no other quota. -/
theorem Shifts.round (hmove : Shifts f move) {order : List Nat} (horder : order.Nodup) (l : Ledger)
    (i : Nat) :
    ((order.foldl move l).quotas[i]? = l.quotas[i]? ∧
        (i ∈ order → (order.foldl move l).remaining = 0)) ∨
      ((order.foldl move l).quotas[i]? = l.quotas[i]?.map f ∧ i ∈ order) := by
  induction order generalizing l with
  | nil => exact Or.inl ⟨rfl, fun h => absurd h List.not_mem_nil⟩
  | cons k order ih =>
    obtain ⟨hk, horder⟩ := List.nodup_cons.1 horder
    rw [List.foldl_cons]
    rcases Nat.eq_zero_or_pos l.remaining with hclosed | hopen
    · -- No unit is open, so neither this move nor the rest of the round does anything.
      have hstays : move l k = l := (hmove.closing l k).resolve_right (by omega)
      have hround : order.foldl move l = l := (hmove.closing.round order l).resolve_right (by omega)
      rw [hstays, hround]
      exact Or.inl ⟨rfl, fun _ => hclosed⟩
    · have hquota : (move l k).quotas[i]? = if k = i then l.quotas[i]?.map f else l.quotas[i]? := by
        rw [hmove.quotas l k hopen, List.getElem?_modify]
        cases l.quotas[i]? <;> split <;> rfl
      rcases ih horder (move l k) with ⟨hsame, hclosed⟩ | ⟨hshift, hi⟩
      · by_cases hki : k = i
        · subst hki
          rw [if_pos rfl] at hquota
          exact Or.inr ⟨hsame.trans hquota, List.mem_cons_self ..⟩
        · rw [if_neg hki] at hquota
          refine Or.inl ⟨hsame.trans hquota, fun hi => hclosed ?_⟩
          exact (List.mem_cons.1 hi).resolve_left (Ne.symm hki)
      · have hki : k ≠ i := fun h => hk (h ▸ hi)
        rw [if_neg hki] at hquota
        rw [hquota] at hshift
        exact Or.inr ⟨hshift, List.mem_cons_of_mem _ hi⟩

/-- Level quotas stay level from round to round, until the units run out and leave them nearly
level. -/
theorem Shifts.near_close (hmove : Shifts f move) (hf : ∀ x, f x ≤ x + 1 ∧ x ≤ f x + 1)
    {order : List Nat} (horder : order.Nodup) {i j : Nat} (hboth : i ∈ order ↔ j ∈ order)
    {l : Ledger} (h : l.quotas[i]? = l.quotas[j]?) : Near (l.close move order).quotas i j := by
  have hend := (comesToRest_close hmove.closing order l).keeps
    (P := fun l => l.quotas[i]? = l.quotas[j]? ∨ l.remaining = 0 ∧ Near l.quotas i j)
    (fun l hl => ?_) (Or.inl h)
  · rcases hend with hlevel | ⟨-, hnear⟩
    · exact near_of_eq hlevel
    · exact hnear
  · rcases hl with hlevel | ⟨hclosed, hnear⟩
    · rcases hmove.round horder l i with ⟨hi, hclosedi⟩ | ⟨hi, hmemi⟩ <;>
        rcases hmove.round horder l j with ⟨hj, hclosedj⟩ | ⟨hj, hmemj⟩
      · exact Or.inl (by rw [hi, hj, hlevel])
      · -- The units ran out after `j` had its turn and before `i` would have had its own.
        refine Or.inr ⟨hclosedi (hboth.2 hmemj), fun x y hx hy => ?_⟩
        rw [hi, hlevel] at hx
        rw [hj, hx] at hy
        obtain rfl := Option.some.inj hy
        have := hf x
        omega
      · refine Or.inr ⟨hclosedj (hboth.1 hmemi), fun x y hx hy => ?_⟩
        rw [hj] at hy
        rw [hi, hlevel, hy] at hx
        obtain rfl := Option.some.inj hx
        have := hf y
        omega
      · exact Or.inl (by rw [hi, hj, hlevel])
    · have hstays : order.foldl move l = l :=
        (hmove.closing.round order l).resolve_right (by omega)
      rw [hstays]
      exact Or.inr ⟨hclosed, hnear⟩

end Ledger

/-! ### The division -/

/-- Members of one weight get quotas that differ by at most one unit. -/
theorem near_of_divide {weights : List Float} {total capacity : Nat} {quotas : List Nat}
    (h : divide weights total capacity = .ok quotas) {i j : Nat}
    (hweights : weights[i]? = weights[j]?) : Near quotas i j := by
  unfold divide at h
  split at h
  · cases h
  · dsimp only at h
    have hlike : (settle total capacity weights)[i]? = (settle total capacity weights)[j]? :=
      getElem?_settle_congr hweights
    generalize settle total capacity weights = claimants at h hlike
    generalize poolOf total capacity claimants = pool at h
    have hfloors : (claimants.map (Claimant.floorQuota pool capacity))[i]? =
        (claimants.map (Claimant.floorQuota pool capacity))[j]? := by
      rw [List.getElem?_map, List.getElem?_map, hlike]
    have horder := nodup_roundingOrder pool claimants
    have hboth : i ∈ roundingOrder pool claimants ↔ j ∈ roundingOrder pool claimants := by
      rw [mem_roundingOrder, mem_roundingOrder, hlike]
    split at h
    · split at h
      · obtain rfl := Except.ok.inj h
        apply (Ledger.shifts_give capacity).near_close _ horder hboth hfloors
        intro x
        split <;> omega
      · cases h
    · split at h
      · obtain rfl := Except.ok.inj h
        apply Ledger.shifts_take.near_close _ (List.nodup_reverse.2 horder) _ hfloors
        · intro x
          omega
        · rw [List.mem_reverse, List.mem_reverse, hboth]
      · cases h

/-- A division is exact, capped and even, whatever the rounding of doubles did to the shares. All of
its rounds come to an end: each round of pinning but the last pins another member, and each round of
giving or taking but the last closes units, until none is open or no quota can move. The quotas that
it gives are one for each weight, sum to the total and stay within the capacity, and members of one
weight get quotas that differ by at most one. More units than there is room for are refused. -/
theorem divide_evenly (weights : List Float) (total capacity : Nat) :
    ComesToRest (pinRound total capacity) unpinned (weights.map fun w => ⟨w, false⟩)
        (settle total capacity weights) ∧
      (∀ order l,
        ComesToRest (List.foldl (Ledger.give capacity) · order) Ledger.remaining l
          (l.close (Ledger.give capacity) order) ∧
        ComesToRest (List.foldl Ledger.take · order) Ledger.remaining l
          (l.close Ledger.take order)) ∧
      (∀ quotas : List Nat, divide weights total capacity = .ok quotas →
        quotas.length = weights.length ∧ sumOf quotas = total ∧ (∀ x ∈ quotas, x ≤ capacity) ∧
        ∀ i j : Nat, weights[i]? = weights[j]? →
          ∀ x y : Nat, quotas[i]? = some x → quotas[j]? = some y → x ≤ y + 1) ∧
      (capacity * weights.length < total →
        divide weights total capacity = .error (.tooManyUnits total weights.length capacity)) := by
  refine ⟨comesToRest_settle total capacity weights, fun order l => ⟨?_, ?_⟩, ?_, ?_⟩
  · exact Ledger.comesToRest_close (Ledger.closing_give capacity) order l
  · exact Ledger.comesToRest_close Ledger.closing_take order l
  · intro quotas h
    obtain ⟨⟨hlength, hle⟩, hsum⟩ := divide_eq_ok h
    refine ⟨hlength, hsum, hle, fun i j hweights x y hx hy => ?_⟩
    exact (near_of_divide h hweights x y hx hy).1
  · intro hfull
    exact if_pos hfull

/-- Twelve units for three members of weight 1 and one of weight 8, at most four for each: the heavy
one is pinned, and of the eight units that are left the third member goes without an odd one. There
is no room for seventeen. -/
theorem divide_evenly_heavyMember :
    divide [1.0, 1.0, 1.0, 8.0] 12 4 = .ok [3, 3, 2, 4] ∧ (3 : Nat) ≤ 2 + 1 ∧
      divide [1.0, 1.0, 1.0, 8.0] 17 4 = .error (.tooManyUnits 17 4 4) := by
  have h : divide [1.0, 1.0, 1.0, 8.0] 12 4 = .ok [3, 3, 2, 4] := by decide +kernel
  obtain ⟨-, -, hexact, -⟩ := divide_evenly [1.0, 1.0, 1.0, 8.0] 12 4
  obtain ⟨-, -, -, heven⟩ := hexact _ h
  obtain ⟨-, -, -, hfull⟩ := divide_evenly [1.0, 1.0, 1.0, 8.0] 17 4
  exact ⟨h, heven 0 2 rfl 3 2 rfl rfl, hfull (by decide)⟩

end ReplicaRing.Quota
