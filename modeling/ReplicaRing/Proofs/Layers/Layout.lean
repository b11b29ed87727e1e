import ReplicaRing.Proofs.Layers.Fresh
import Mathlib.Algebra.Order.BigOperators.Group.Finset

/-!
# Layouts of quotas

Layers lay quotas out when every layer is full, nobody owns an offset twice, and every member holds
its quota (`Layer.Layout`). Fresh layers do (`layout_fresh`), and so do layers that have been
adjusted by releasing and filling (`layout_of_fill?`). When the quotas sum to the number of slots,
no slot of a layout is left without an owner (`Layout.owned`): the members hold all slots together,
and no column can hold more than it has places.
-/

namespace ReplicaRing.Layer

open PlacementRequest (ownerAt?)

/-- Layers in which every member holds its quota, and no offset twice. -/
structure Layout (size replicas : Nat) (quotas : List Nat) (layers : List Layer) : Prop where
  length : layers.length = replicas
  spans : ∀ layer ∈ layers, SpansFrom 0 size layer
  distinct : Distinct layers
  held : ∀ m quota, quotas[m]? = some quota → holding layers m = quota

/-! ### Counting the slots -/

theorem sum_count_range (n : Nat) (xs : List (Option Nat)) :
    ∑ m ∈ Finset.range n, xs.count (some m) = xs.countP (·.any (· < n)) := by
  induction xs with
  | nil => simp
  | cons x xs ih =>
    simp only [List.count_cons, List.countP_cons, Finset.sum_add_distrib, ih]
    cases x with
    | none => simp
    | some m => simp

/-- What the first `n` members hold together are the places in the columns that they own. -/
theorem sum_holding {size : Nat} {layers : List Layer}
    (h : ∀ layer ∈ layers, SpansFrom 0 size layer) (n : Nat) :
    ∑ m ∈ Finset.range n, holding layers m =
      ∑ o ∈ Finset.range size, (column layers o).countP (·.any (· < n)) := by
  simp only [holding_eq_sum_count h]
  rw [Finset.sum_comm]
  exact Finset.sum_congr rfl fun o _ => sum_count_range n _

/-- Members that own every slot hold all slots together. -/
theorem sum_holding_of_owned {size n : Nat} {layers : List Layer}
    (h : ∀ layer ∈ layers, SpansFrom 0 size layer)
    (howned : ∀ o < size, ∀ owner ∈ column layers o, ∃ m < n, owner = some m) :
    ∑ m ∈ Finset.range n, holding layers m = size * layers.length := by
  have hfull : ∀ o ∈ Finset.range size,
      (column layers o).countP (·.any (· < n)) = layers.length := by
    intro o ho
    rw [← length_column layers o, List.countP_eq_length]
    intro owner howner
    obtain ⟨m, hm, rfl⟩ := howned o (Finset.mem_range.1 ho) owner howner
    simpa using hm
  rw [sum_holding h, Finset.sum_const_nat hfull, Finset.card_range]

theorem sumOf_eq_sum_range (ns : List Nat) :
    sumOf ns = ∑ i ∈ Finset.range ns.length, ns[i]?.getD 0 := by
  induction ns with
  | nil => rfl
  | cons n ns ih =>
    rw [sumOf_cons, ih, List.length_cons, Finset.sum_range_succ', Nat.add_comm]
    rfl

/-- If the quotas sum to the number of slots, every slot is owned. -/
theorem Layout.owned {size replicas : Nat} {quotas : List Nat} {layers : List Layer}
    (h : Layout size replicas quotas layers) (hsum : sumOf quotas = size * replicas) :
    ∀ o < size, ∀ owner ∈ column layers o, ∃ m < quotas.length, owner = some m := by
  have hle : ∀ o ∈ Finset.range size,
      (column layers o).countP (·.any (· < quotas.length)) ≤ replicas := by
    intro o _
    rw [← h.length, ← length_column layers o]
    exact List.countP_le_length
  have htotal : ∑ o ∈ Finset.range size, (column layers o).countP (·.any (· < quotas.length)) =
      ∑ _o ∈ Finset.range size, replicas := by
    rw [← sum_holding h.spans, Finset.sum_const_nat fun _ _ => rfl, Finset.card_range, ← hsum,
      sumOf_eq_sum_range]
    refine Finset.sum_congr rfl fun m hm => ?_
    have hm := List.getElem?_eq_getElem (Finset.mem_range.1 hm)
    rw [h.held m _ hm, hm, Option.getD_some]
  intro o ho owner howner
  -- No column falls short, since together they do not.
  have hfull := (Finset.sum_eq_sum_iff_of_le hle).1 htotal o (Finset.mem_range.2 ho)
  rw [← h.length, ← length_column layers o, List.countP_eq_length] at hfull
  have hany := hfull owner howner
  cases owner with
  | none => cases hany
  | some m => exact ⟨m, by simpa using hany, rfl⟩

/-! ### Where layouts come from -/

theorem layout_fresh {quotas : List Nat} {replicas size : Nat}
    (h : sumOf quotas = size * replicas) (hle : ∀ quota ∈ quotas, quota ≤ size) :
    Layout size replicas quotas (fresh quotas replicas size) where
  length := length_fresh quotas replicas size
  spans := spansFrom_fresh h
  distinct := distinct_fresh h hle
  held m quota hm := by rw [holding_fresh h, hm, Option.getD_some]

/-- A loss does not add to what a member owns of an offset. -/
theorem count_le_of_loss {size : Nat} {drops : Nat → Prop} {before after : List Layer}
    (h : List.Forall₂ (Reassigned 0 size (Loss drops)) before after) (o m : Nat) :
    (column after o).count (some m) ≤ (column before o).count (some m) := by
  induction h with
  | nil => exact Nat.le_refl _
  | cons hab _ ih =>
    rw [column_cons, column_cons, List.count_cons, List.count_cons]
    split
    · rename_i hafter
      rw [(hab.owner o).eq_some (eq_of_beq hafter)]
      simpa using ih
    · split <;> omega

/-- Layers in which nobody owns an offset twice are adjusted to the quotas, if everyone reaches its
quota. -/
theorem layout_of_fill? {size : Nat} {quotas : List Nat} {layers after : List Layer}
    (h : ∀ layer ∈ layers, SpansFrom 0 size layer) (hdistinct : Distinct layers)
    (hfill : fill? quotas (release quotas layers) = some after) :
    Layout size layers.length quotas after := by
  obtain ⟨hreleased, hcapped⟩ := release_spec h quotas
  obtain ⟨hfilled, hkept, hheld⟩ := fillFrom?_eq_some (spans_of_forall₂ hreleased) hfill
  refine ⟨hfilled.length_eq.symm.trans hreleased.length_eq.symm, spans_of_forall₂ hfilled,
    hkept fun o m => Nat.le_trans (count_le_of_loss hreleased o m) (hdistinct o m), ?_⟩
  intro m quota hm
  have hmax := hheld m quota hm
  rw [Nat.zero_add, hcapped m quota hm] at hmax
  omega

end ReplicaRing.Layer
