import ReplicaRing.Proofs.Layers.Layout

/-!
# Adjusting layers

Releasing and filling leave the slots alone of members that hold their quota already: one that holds
no more keeps what it has (`fill?_keeps`), and one that holds no less gains nothing
(`fill?_gains_none`); if everyone holds its quota, nothing happens at all (`release_eq_self`,
`fill?_eq_self`). Filling can fail only where several layers get in each other's way: in a single
layer, an offset that nobody owns is free for everyone, and what is left over makes up for what is
missing (`fill?_singleton_ne_none`).
-/

namespace ReplicaRing.Layer

open PlacementRequest (ownerAt?)

/-! ### From layers to columns -/

theorem forall₂_column {size : Nat} {change : Option Nat → Option Nat → Prop}
    {before after : List Layer} (h : List.Forall₂ (Reassigned 0 size change) before after) (o : Nat) :
    List.Forall₂ change (column before o) (column after o) := by
  unfold column
  rw [List.forall₂_map_left_iff, List.forall₂_map_right_iff]
  exact h.imp fun _ _ hab => hab.owner o

/-- What stands at a place of a list determines what stands at that place of a related one, if the
relation does. -/
theorem getElem?_of_forall₂ {α β : Type} {R : α → β → Prop} {xs : List α} {ys : List β}
    (h : List.Forall₂ R xs ys) {x : α} {y : β} (hxy : ∀ b, R x b → b = y) {j : Nat}
    (hj : xs[j]? = some x) : ys[j]? = some y := by
  induction h generalizing j with
  | nil => cases hj
  | @cons a b xs ys hab _ ih =>
    cases j with
    | zero =>
      obtain rfl : a = x := by simpa using hj
      rw [List.getElem?_cons_zero, hxy b hab]
    | succ j =>
      rw [List.getElem?_cons_succ] at hj ⊢
      exact ih hj

section Adjusting

variable {size : Nat} {quotas : List Nat} {layers after : List Layer}

/-- A member that holds no more than its quota keeps its slots. -/
theorem fill?_keeps (h : ∀ layer ∈ layers, SpansFrom 0 size layer)
    (hfill : fill? quotas (release quotas layers) = some after) {m quota : Nat}
    (hm : quotas[m]? = some quota) (hle : holding layers m ≤ quota) {o j : Nat}
    (hj : (column layers o)[j]? = some (some m)) : (column after o)[j]? = some (some m) := by
  obtain ⟨hreleased, -⟩ := release_spec h quotas
  obtain ⟨hfilled, -, -⟩ := fillFrom?_eq_some (spans_of_forall₂ hreleased) hfill
  have hkept : (column (release quotas layers) o)[j]? = some (some m) := by
    refine getElem?_of_forall₂ (forall₂_column hreleased o) (fun b hb => ?_) hj
    refine (hb.eq_some_iff ?_).2 rfl
    -- Only members above their quota give anything up.
    rintro ⟨quota', hm', hlt⟩
    have heq := Option.some.inj (hm.symm.trans hm')
    omega
  exact getElem?_of_forall₂ (forall₂_column hfilled o) (fun b hb => hb.eq_some rfl) hkept

/-- A member that holds no less than its quota gains no slot. -/
theorem fill?_gains_none (h : ∀ layer ∈ layers, SpansFrom 0 size layer)
    (hfill : fill? quotas (release quotas layers) = some after) {m quota : Nat}
    (hm : quotas[m]? = some quota) (hle : quota ≤ holding layers m) {o j : Nat}
    (hj : (column after o)[j]? = some (some m)) : (column layers o)[j]? = some (some m) := by
  obtain ⟨hreleased, hcapped⟩ := release_spec h quotas
  obtain ⟨hfilled, -, -⟩ := fillFrom?_eq_some (spans_of_forall₂ hreleased) hfill
  have hheld := hcapped m quota hm
  have hbefore : (column (release quotas layers) o)[j]? = some (some m) := by
    refine getElem?_of_forall₂ (forall₂_column hfilled o).flip (fun a ha => ?_) hj
    refine (ha.eq_some_iff ?_).1 rfl
    -- Only members below their quota are given anything.
    rintro ⟨i, quota', hmi, hi, hlt⟩
    rw [Nat.zero_add] at hmi
    subst hmi
    have heq := Option.some.inj (hm.symm.trans hi)
    omega
  exact getElem?_of_forall₂ (forall₂_column hreleased o).flip (fun a ha => ha.eq_some rfl) hbefore

end Adjusting

/-! ### Layers that hold their quotas -/

section Held

variable {quotas : List Nat} {layers : List Layer}

theorem releaseFrom_zero (m : Nat) (layer : Layer) : releaseFrom m 0 layer = (layer, 0) := by
  induction layer with
  | nil => rfl
  | cons s rest ih =>
    rw [releaseFrom_cons, ih]
    exact if_neg fun h => Nat.lt_irrefl 0 h.2

theorem releaseMember_zero (m : Nat) (layers : List Layer) : releaseMember m 0 layers = layers := by
  have hall : layers.foldr (fun layer r =>
      ((releaseFrom m r.2 layer).1 :: r.1, (releaseFrom m r.2 layer).2)) ([], 0) = (layers, 0) := by
    induction layers with
    | nil => rfl
    | cons layer layers ih => rw [List.foldr_cons, ih, releaseFrom_zero]
  rw [releaseMember_eq_foldr, hall]

/-- Nothing is released if nobody holds more than its quota. -/
theorem release_eq_self (h : ∀ m quota, quotas[m]? = some quota → holding layers m ≤ quota) :
    release quotas layers = layers := by
  have hall : ∀ pairs : List (Nat × Nat), (∀ pair ∈ pairs, holding layers pair.2 ≤ pair.1) →
      pairs.foldl (fun layers pair =>
        releaseMember pair.2 (holding layers pair.2 - pair.1) layers) layers = layers := by
    intro pairs hpairs
    induction pairs with
    | nil => rfl
    | cons pair pairs ih =>
      obtain ⟨hle, hrest⟩ := List.forall_mem_cons.1 hpairs
      rw [List.foldl_cons, Nat.sub_eq_zero_of_le hle, releaseMember_zero]
      exact ih hrest
  refine hall _ fun pair hpair => ?_
  exact h pair.2 pair.1 (List.mk_mem_zipIdx_iff_getElem?.1 hpair)

theorem fillLayers_zero (m : Nat) (done layers : List Layer) :
    fillLayers m done 0 layers = (done ++ layers, 0) := by
  cases layers with
  | nil => rw [fillLayers, List.append_nil]
  | cons layer layers => rw [fillLayers, if_pos rfl]

theorem fillFrom?_eq_self {k : Nat}
    (h : ∀ i quota, quotas[i]? = some quota → quota ≤ holding layers (k + i)) :
    fillFrom? k layers quotas = some layers := by
  induction quotas generalizing k with
  | nil => rfl
  | cons quota quotas ih =>
    have hle : quota ≤ holding layers k := h 0 quota rfl
    rw [fillFrom?, Nat.sub_eq_zero_of_le hle, fillLayers_zero]
    refine ih fun i quota hi => ?_
    rw [Nat.add_assoc, Nat.add_comm 1 i]
    exact h (i + 1) quota hi

/-- Nothing is filled up if nobody holds less than its quota. -/
theorem fill?_eq_self (h : ∀ m quota, quotas[m]? = some quota → quota ≤ holding layers m) :
    fill? quotas layers = some layers :=
  fillFrom?_eq_self fun i quota hi => by
    rw [Nat.zero_add]
    exact h i quota hi

end Held

/-! ### A single layer -/

/-- Nobody owns an offset in another layer when there is only one. -/
theorem ownerAt?_ne_none_of_exhausted {size m o : Nat} {layer : Layer}
    (h : Exhausted size m [layer]) (ho : o < size) : ownerAt? layer o ≠ none := by
  intro hnone
  have hmem := h layer (List.mem_singleton_self _) o ho hnone
  rw [column, List.map_singleton, hnone, List.mem_singleton] at hmem
  cases hmem

/-- Whoever owns an offset after releasing and filling is a member if the owner before was one. -/
theorem lt_of_gain {quotas : List Nat} {layers : List Layer} {drops : Nat → Prop}
    {a b : Option Nat} {m : Nat} (hloss : Loss drops a b)
    (hgain : Gain (Below 0 quotas layers) b (some m))
    (ha : ∀ m, a = some m → m < quotas.length) : m < quotas.length := by
  cases hgain with
  | keep => exact ha m (hloss.eq_some rfl)
  | gain _ hbelow =>
    obtain ⟨i, _, rfl, hi, -⟩ := hbelow
    rw [Nat.zero_add]
    exact (List.getElem?_eq_some_iff.1 hi).1

/-- In a single layer, everyone reaches its quota. -/
theorem fill?_singleton_ne_none {size : Nat} {quotas : List Nat} {layer : Layer}
    (h : SpansFrom 0 size layer)
    (howners : ∀ o < size, ∀ m, ownerAt? layer o = some m → m < quotas.length)
    (hsum : sumOf quotas = size) : fill? quotas (release quotas [layer]) ≠ none := by
  intro hfill
  have hspans : ∀ l ∈ [layer], SpansFrom 0 size l := by
    intro l hl
    rwa [List.mem_singleton.1 hl]
  obtain ⟨hreleased, hcapped⟩ := release_spec hspans quotas
  obtain ⟨after, i, quota, hi, hgain, hlt, hexhausted, hbound⟩ :=
    fillFrom?_eq_none (spans_of_forall₂ hreleased) hfill
  have hafter := spans_of_forall₂ hgain
  generalize release quotas [layer] = released at *
  cases hreleased with | @cons _ kept _ _ hloss hnil =>
  cases hnil
  cases hgain with | @cons _ filled _ _ hgain hnil =>
  cases hnil
  -- Where nobody owns an offset, it is left over, and the member that lacks some would own it.
  have howned : ∀ o < size, ∀ owner ∈ column [filled] o, ∃ m < quotas.length, owner = some m := by
    intro o ho owner howner
    obtain rfl : owner = ownerAt? filled o := List.mem_singleton.1 howner
    obtain ⟨m, hm⟩ := Option.ne_none_iff_exists'.1 (ownerAt?_ne_none_of_exhausted hexhausted ho)
    have hchange := hgain.owner o
    rw [hm] at hchange
    exact ⟨m, lt_of_gain (hloss.owner o) hchange (howners o ho), hm⟩
  have hfull := sum_holding_of_owned hafter howned
  -- But no member holds more than its quota, and one holds less.
  have hless : ∑ m ∈ Finset.range quotas.length, holding [filled] m <
      ∑ m ∈ Finset.range quotas.length, quotas[m]?.getD 0 := by
    refine Finset.sum_lt_sum (fun m hm => ?_)
      ⟨i, Finset.mem_range.2 (List.getElem?_eq_some_iff.1 hi).1, ?_⟩
    · have hm := List.getElem?_eq_getElem (Finset.mem_range.1 hm)
      have hle := hbound m _ hm
      have hcap := hcapped m _ hm
      rw [Nat.zero_add] at hle
      rw [hm, Option.getD_some]
      omega
    · rw [Nat.zero_add] at hlt
      rwa [hi, Option.getD_some]
  rw [hfull, List.length_singleton, Nat.mul_one, ← sumOf_eq_sum_range, hsum] at hless
  exact Nat.lt_irrefl size hless

end ReplicaRing.Layer
