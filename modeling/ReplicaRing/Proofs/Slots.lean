import ReplicaRing.Proofs.Rings
import Mathlib.Algebra.Order.BigOperators.Group.Finset
import Mathlib.Data.Finset.Prod

/-!
# Slots and moves

A region that needs `p` primary owners everywhere has one slot for each coordinate and each place in
the list of primary owners. What a node owns in a ring is the number of its slots
(`Ring.card_slotsOf`). Two rings differ at the slots that move from one to the other. A slot stays
only with an owner that has it in both rings, so when some members own every slot of the second ring,
no fewer slots move than are left over once each of them has stayed with as much as it can
(`Ring.le_moved_add`); and no more move if nobody gains while another of its slots is taken away
(`Ring.moved_add_eq`).
-/

namespace ReplicaRing.Ring

/-- The slots of a region with `p` primary owners everywhere. -/
def slots (region : Region) (p : Nat) : Finset (Nat × Nat) :=
  Finset.Icc region.first region.last ×ˢ Finset.range p

/-- The owner of a slot: the primary owner of a coordinate at a place. -/
def slotOwner? (r : Ring) (slot : Nat × Nat) : Option NodeId :=
  (r.ownersAt slot.1 .primary)[slot.2]?

/-- The slots of a node. -/
def slotsOf (r : Ring) (p : Nat) (id : NodeId) : Finset (Nat × Nat) :=
  (slots r.region p).filter fun slot => r.slotOwner? slot = some id

/-- The number of slots of the first ring that have another owner in the second one. -/
def moved (p : Nat) (a b : Ring) : Nat :=
  ((slots a.region p).filter fun slot => a.slotOwner? slot ≠ b.slotOwner? slot).card

theorem mem_slots {region : Region} {p : Nat} {slot : Nat × Nat} :
    slot ∈ slots region p ↔ slot.1 ∈ region ∧ slot.2 < p := by
  unfold slots
  rw [Finset.mem_product, Finset.mem_Icc, Finset.mem_range, Region.mem_iff]

theorem card_slots (region : Region) (p : Nat) : (slots region p).card = p * region.size := by
  have hend := region.first_add_size
  unfold slots
  rw [Finset.card_product, Nat.card_Icc, Finset.card_range, Nat.mul_comm]
  congr 1
  omega

theorem mem_slotsOf {r : Ring} {p : Nat} {id : NodeId} {slot : Nat × Nat} :
    slot ∈ r.slotsOf p id ↔ slot ∈ slots r.region p ∧ r.slotOwner? slot = some id :=
  Finset.mem_filter

/-! ### Counting slots -/

theorem count_eq_sum_getElem? (xs : List NodeId) (x : NodeId) :
    xs.count x = ∑ j ∈ Finset.range xs.length, if xs[j]? = some x then 1 else 0 := by
  induction xs with
  | nil => rfl
  | cons y xs ih =>
    rw [List.count_cons, ih, List.length_cons, Finset.sum_range_succ']
    simp [beq_iff_eq]

/-- What a node owns in a ring is the number of its slots. -/
theorem card_slotsOf {r : Ring} {p : Nat}
    (h : ∀ e ∈ r.entries.toList, e.owners.primary.length = p) (id : NodeId) :
    (r.slotsOf p id).card = r.sizeOwnedBy id .primary := by
  have hend := r.region.first_add_size
  have hoffsets : Finset.Icc r.region.first r.region.last =
      Finset.Ico r.region.first (r.region.first + r.region.size) := by
    ext c
    rw [Finset.mem_Icc, Finset.mem_Ico]
    omega
  unfold slotsOf slots
  rw [Finset.card_filter, Finset.sum_product, r.sizeOwnedBy_eq_sum, hoffsets,
    Finset.sum_Ico_eq_sum_range, Nat.add_sub_cancel_left]
  refine Finset.sum_congr rfl fun o ho => ?_
  have hc := Region.first_add_mem.2 (Finset.mem_range.1 ho)
  have hcount := count_eq_sum_getElem? (r.ownersAt (r.region.first + o) .primary) id
  rw [length_ownersAt h hc, (r.nodup_ownersAt _).count] at hcount
  exact hcount.symm

/-- Slots of different nodes are different. -/
theorem disjoint_slotsOf {r : Ring} {p : Nat} {id id' : NodeId} (h : id ≠ id') :
    Disjoint (r.slotsOf p id) (r.slotsOf p id') := by
  rw [Finset.disjoint_left]
  intro slot hslot hslot'
  have heq := (mem_slotsOf.1 hslot).2.symm.trans (mem_slotsOf.1 hslot').2
  exact h (Option.some.inj heq)

section Moves

variable {a b : Ring} {p : Nat} {ids : Finset NodeId}

/-- If some nodes own as many slots as there are, every slot is theirs. -/
theorem exists_owner (hb : ∀ e ∈ b.entries.toList, e.owners.primary.length = p)
    (hall : ∑ id ∈ ids, b.sizeOwnedBy id .primary = p * b.region.size) {slot : Nat × Nat}
    (hslot : slot ∈ slots b.region p) : ∃ id ∈ ids, slot ∈ b.slotsOf p id := by
  have hsub : ids.biUnion (b.slotsOf p) ⊆ slots b.region p := by
    intro slot hmem
    obtain ⟨id, -, hid⟩ := Finset.mem_biUnion.1 hmem
    exact (mem_slotsOf.1 hid).1
  have hcard : (ids.biUnion (b.slotsOf p)).card = (slots b.region p).card := by
    rw [Finset.card_biUnion fun id _ id' _ hne => disjoint_slotsOf hne, card_slots, ← hall]
    exact Finset.sum_congr rfl fun id _ => card_slotsOf hb id
  rw [← Finset.eq_of_subset_of_card_le hsub (Nat.le_of_eq hcard.symm)] at hslot
  exact Finset.mem_biUnion.1 hslot

/-- Every slot moves or stays with its owner. -/
theorem moved_add_sum_card (hregion : a.region = b.region)
    (hb : ∀ e ∈ b.entries.toList, e.owners.primary.length = p)
    (hall : ∑ id ∈ ids, b.sizeOwnedBy id .primary = p * b.region.size) :
    moved p a b + ∑ id ∈ ids, (a.slotsOf p id ∩ b.slotsOf p id).card = p * b.region.size := by
  have hstay : (slots a.region p).filter (fun slot => a.slotOwner? slot = b.slotOwner? slot) =
      ids.biUnion fun id => a.slotsOf p id ∩ b.slotsOf p id := by
    ext slot
    rw [Finset.mem_filter, Finset.mem_biUnion]
    constructor
    · rintro ⟨hslot, heq⟩
      obtain ⟨id, hid, hmem⟩ := exists_owner hb hall (hregion ▸ hslot)
      exact ⟨id, hid, Finset.mem_inter.2
        ⟨mem_slotsOf.2 ⟨hslot, heq.trans (mem_slotsOf.1 hmem).2⟩, hmem⟩⟩
    · rintro ⟨id, -, hmem⟩
      obtain ⟨hslot, ha⟩ := mem_slotsOf.1 (Finset.mem_inter.1 hmem).1
      exact ⟨hslot, ha.trans (mem_slotsOf.1 (Finset.mem_inter.1 hmem).2).2.symm⟩
  have hsplit := Finset.card_filter_add_card_filter_not (s := slots a.region p)
    fun slot => a.slotOwner? slot = b.slotOwner? slot
  rw [hstay, card_slots, hregion, Finset.card_biUnion] at hsplit
  · rw [← hsplit, Nat.add_comm]
    unfold moved
    rw [hregion]
  · intro id _ id' _ hne
    exact (disjoint_slotsOf hne).mono Finset.inter_subset_left Finset.inter_subset_left

/-- A slot stays only with an owner that has it in both rings. -/
theorem le_moved_add (hregion : a.region = b.region)
    (ha : ∀ e ∈ a.entries.toList, e.owners.primary.length = p)
    (hb : ∀ e ∈ b.entries.toList, e.owners.primary.length = p)
    (hall : ∑ id ∈ ids, b.sizeOwnedBy id .primary = p * b.region.size) :
    p * b.region.size ≤ moved p a b +
      ∑ id ∈ ids, min (a.sizeOwnedBy id .primary) (b.sizeOwnedBy id .primary) := by
  rw [← moved_add_sum_card hregion hb hall]
  refine Nat.add_le_add_left (Finset.sum_le_sum fun id _ => Nat.le_min.2 ⟨?_, ?_⟩) _
  · rw [← card_slotsOf ha]
    exact Finset.card_le_card Finset.inter_subset_left
  · rw [← card_slotsOf hb]
    exact Finset.card_le_card Finset.inter_subset_right

/-- If nodes that own no less than before keep their slots and nodes that own no more gain none, as
many slots stay as can. -/
theorem moved_add_eq (hregion : a.region = b.region)
    (ha : ∀ e ∈ a.entries.toList, e.owners.primary.length = p)
    (hb : ∀ e ∈ b.entries.toList, e.owners.primary.length = p)
    (hall : ∑ id ∈ ids, b.sizeOwnedBy id .primary = p * b.region.size)
    (hkeeps : ∀ id ∈ ids, a.sizeOwnedBy id .primary ≤ b.sizeOwnedBy id .primary →
      a.slotsOf p id ⊆ b.slotsOf p id)
    (hgains : ∀ id ∈ ids, b.sizeOwnedBy id .primary ≤ a.sizeOwnedBy id .primary →
      b.slotsOf p id ⊆ a.slotsOf p id) :
    moved p a b + ∑ id ∈ ids, min (a.sizeOwnedBy id .primary) (b.sizeOwnedBy id .primary) =
      p * b.region.size := by
  rw [← moved_add_sum_card hregion hb hall]
  congr 1
  refine Finset.sum_congr rfl fun id hid => ?_
  rcases Nat.le_total (a.sizeOwnedBy id .primary) (b.sizeOwnedBy id .primary) with hle | hle
  · rw [Nat.min_eq_left hle, Finset.inter_eq_left.2 (hkeeps id hid hle), card_slotsOf ha]
  · rw [Nat.min_eq_right hle, Finset.inter_eq_right.2 (hgains id hid hle), card_slotsOf hb]

end Moves

end ReplicaRing.Ring
