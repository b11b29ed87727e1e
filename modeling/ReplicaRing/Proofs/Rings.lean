import ReplicaRing.Proofs.Lookup
import ReplicaRing.Proofs.Runs.Canonical
import ReplicaRing.Ring.Parts
import Mathlib.Algebra.BigOperators.Intervals

/-!
# What rings assign and to whom how much

A ring assigns owners to exactly the coordinates of its region, those of the entry that holds the
coordinate. Entries that tile a region and have sound primary owners everywhere are always accepted
as a ring (`Ring.exists_ofEntries?`). What a node owns in entries that tile a region is counted
coordinate by coordinate (`Entry.sizeOwnedBy_eq_sum`), so it depends on the entries only through the
owners of each coordinate (`Ring.sizeOwnedBy_eq_sum`).
-/

namespace ReplicaRing

theorem Owners.inMode_primary (o : Owners) : o.inMode .primary = o.primary :=
  List.append_nil _

/-! ### Owners of a coordinate -/

namespace Ring

variable {r : Ring} {c : Nat}

/-- Some entry of a ring holds each coordinate of its region. -/
theorem exists_entry (hc : c ∈ r.region) :
    ∃ e ∈ r.entries.toList, c ∈ e.region ∧ Run.valueAt? r.entries.toList c = some e.owners := by
  have hsome := (r.tiles.isSome_valueAt? c).2 hc
  obtain ⟨owners, howners⟩ := Option.isSome_iff_exists.1 hsome
  obtain ⟨e, he, hce, rfl⟩ := Run.mem_of_valueAt?_eq_some howners
  exact ⟨e, he, hce, howners⟩

theorem valueAt?_eq_none (hc : c ∉ r.region) : Run.valueAt? r.entries.toList c = none := by
  rw [← Option.not_isSome_iff_eq_none]
  exact fun hsome => hc ((r.tiles.isSome_valueAt? c).1 hsome)

theorem ownersAt_eq (r : Ring) (c : Nat) (mode : QueryMode) :
    r.ownersAt c mode =
      ((Run.valueAt? r.entries.toList c).map fun o => o.inMode mode).getD [] := by
  rw [← r.map_value_entryAt?, Option.map_map]
  rfl

theorem ownersAt_of_valueAt? {owners : Owners}
    (h : Run.valueAt? r.entries.toList c = some owners) (mode : QueryMode) :
    r.ownersAt c mode = owners.inMode mode := by
  rw [ownersAt_eq, h]
  rfl

/-- A ring repeats no primary owner of a coordinate. -/
theorem nodup_ownersAt (r : Ring) (c : Nat) : (r.ownersAt c .primary).Nodup := by
  by_cases hc : c ∈ r.region
  · obtain ⟨e, he, -, howners⟩ := r.exists_entry hc
    rw [r.ownersAt_of_valueAt? howners, Owners.inMode_primary]
    exact (r.hasPrimaries e he).2
  · rw [r.ownersAt_eq, r.valueAt?_eq_none hc]
    exact List.nodup_nil

/-- If all entries list the same number of primary owners, so do all coordinates. -/
theorem length_ownersAt {replicas : Nat}
    (h : ∀ e ∈ r.entries.toList, e.owners.primary.length = replicas) (hc : c ∈ r.region) :
    (r.ownersAt c .primary).length = replicas := by
  obtain ⟨e, he, -, howners⟩ := r.exists_entry hc
  rw [r.ownersAt_of_valueAt? howners, Owners.inMode_primary]
  exact h e he

/-- Entries that tile a region make a ring if every coordinate has primary owners and repeats
none. -/
theorem exists_ofEntries? (node : NodeId) (policy : String) (p s : Nat) (tolerance : Float)
    {region : Region} {entries : List Entry} (htiles : Run.Tiles region entries)
    (hprimaries : ∀ c ∈ region, ∀ owners, Run.valueAt? entries c = some owners →
      owners.primary ≠ [] ∧ owners.primary.Nodup) :
    ∃ r, Ring.ofEntries? node policy region p s tolerance entries = .ok r ∧ r.region = region ∧
      ∀ c, Run.valueAt? r.entries.toList c = Run.valueAt? entries c := by
  have hcanonical : Run.Tiles region (Run.canonical entries) := htiles.canonical
  have hnone : defect? region (Run.canonical entries) = none := by
    refine defect?_eq_none.2 ⟨hcanonical, fun e he => ?_⟩
    -- An entry has the owners of its first coordinate.
    have hmem : e.region.first ∈ e.region := ⟨Nat.le_refl _, e.region.first_le_last⟩
    have hvalue := hcanonical.valueAt?_of_mem he hmem
    have hbounds := hcanonical.bounds he
    have := e.region.first_le_last
    rw [htiles.valueAt?_canonical] at hvalue
    exact hprimaries e.region.first (Region.mem_iff.2 (by omega)) _ hvalue
  unfold Ring.ofEntries?
  split
  · rename_i hdefect
    rw [hnone] at hdefect
    cases hdefect
  · exact ⟨_, rfl, rfl, htiles.valueAt?_canonical⟩

/-! ### Parts and entries -/

/-- A ring keeps everything that it is made for. -/
theorem parts_of_ofEntries? {node : NodeId} {policy : String} {region : Region} {p s : Nat}
    {tolerance : Float} {entries : List Entry} {r : Ring}
    (h : ofEntries? node policy region p s tolerance entries = .ok r) :
    r.parts = ⟨node, policy, region, p, s, tolerance, r.entries.toList⟩ := by
  unfold ofEntries? at h
  split at h
  · cases h
  · obtain rfl := Except.ok.inj h
    rfl

/-- The tolerance is kept, and nothing else depends on it. -/
theorem ofEntries?_tolerance (node : NodeId) (policy : String) (region : Region) (p s : Nat)
    (tolerance other : Float) (entries : List Entry) :
    ofEntries? node policy region p s other entries =
      (ofEntries? node policy region p s tolerance entries).map
        ({ · with tolerance := other }) := by
  unfold ofEntries?
  split <;> rfl

theorem eq_of_parts {r r' : Ring} (h : r.parts = r'.parts) : r = r' := by
  have hsame := congrArg ofParts? h
  rw [ofParts?_parts, ofParts?_parts] at hsame
  exact Option.some.inj hsame

/-- Rings over one region that give every coordinate the same owners have the same entries. -/
theorem entries_eq_of_valueAt? {r r' : Ring} (hregion : r.region = r'.region)
    (h : ∀ c ∈ r.region,
      Run.valueAt? r.entries.toList c = Run.valueAt? r'.entries.toList c) :
    r.entries.toList = r'.entries.toList := by
  refine Run.eq_of_valueAt? r.tiles.inOrder r'.tiles.inOrder r.merged r'.merged fun c => ?_
  by_cases hc : c ∈ r.region
  · exact h c hc
  · rw [r.valueAt?_eq_none hc, r'.valueAt?_eq_none (by rwa [← hregion])]

end Ring

/-! ### Sizes -/

theorem Entry.sizeOwnedBy_cons (e : Entry) (rest : List Entry) (id : NodeId) (mode : QueryMode) :
    Entry.sizeOwnedBy (e :: rest) id mode =
      (if id ∈ e.owners.inMode mode then e.region.size else 0) +
        Entry.sizeOwnedBy rest id mode := by
  unfold Entry.sizeOwnedBy Entry.ownedBy
  by_cases h : id ∈ e.owners.inMode mode <;> simp [h]

/-- What a node owns is counted coordinate by coordinate. -/
theorem Entry.sizeOwnedBy_eq_sum {first last : Nat} {entries : List Entry}
    (h : Run.TilesFrom first last entries) (id : NodeId) (mode : QueryMode) :
    Entry.sizeOwnedBy entries id mode = ∑ c ∈ Finset.Ico first (last + 1),
      if id ∈ ((Run.valueAt? entries c).map fun o => o.inMode mode).getD [] then 1 else 0 := by
  induction entries generalizing first with
  | nil =>
    obtain rfl : first = last + 1 := h
    simp [Entry.sizeOwnedBy, Entry.ownedBy]
  | cons e rest ih =>
    have hfirst := h.1
    have hle := e.region.first_le_last
    have hsize : e.region.size = e.region.last + 1 - first := by
      have := e.region.first_add_size
      omega
    rw [Entry.sizeOwnedBy_cons, ih h.2, ← Finset.sum_Ico_consecutive _
      (show first ≤ e.region.last + 1 by omega) h.2.le]
    congr 1
    · -- Within the first entry, all coordinates have its owners.
      have hentry : ∀ c ∈ Finset.Ico first (e.region.last + 1),
          (if id ∈ ((Run.valueAt? (e :: rest) c).map fun o => o.inMode mode).getD [] then 1 else 0) =
            if id ∈ e.owners.inMode mode then 1 else 0 := by
        intro c hc
        rw [Finset.mem_Ico] at hc
        rw [Run.valueAt?_cons, if_pos (Region.mem_iff.2 (by omega))]
        rfl
      rw [Finset.sum_congr rfl hentry, hsize]
      split
      · rw [Finset.sum_const_nat (fun _ _ => rfl), Nat.card_Ico, Nat.mul_one]
      · rw [Finset.sum_const_zero]
    · refine Finset.sum_congr rfl fun c hc => ?_
      rw [Finset.mem_Ico] at hc
      have hbehind : c ∉ e.region := by
        rw [Region.mem_iff]
        omega
      rw [Run.valueAt?_cons, if_neg hbehind]

/-- What a child owns in a ring is the number of coordinates that list it. -/
theorem Ring.sizeOwnedBy_eq_sum (r : Ring) (id : NodeId) (mode : QueryMode) :
    r.sizeOwnedBy id mode = ∑ o ∈ Finset.range r.region.size,
      if id ∈ r.ownersAt (r.region.first + o) mode then 1 else 0 := by
  have hsize : r.region.last + 1 - r.region.first = r.region.size := by
    have := r.region.first_add_size
    omega
  unfold Ring.sizeOwnedBy
  rw [Entry.sizeOwnedBy_eq_sum r.tiles, Finset.sum_Ico_eq_sum_range, hsize]
  simp only [Ring.ownersAt_eq]

end ReplicaRing
