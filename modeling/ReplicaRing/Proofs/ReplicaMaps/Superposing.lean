import ReplicaRing.Proofs.ReplicaMaps
import ReplicaRing.Proofs.Rings
import ReplicaRing.Proofs.Unions

/-!
# Superposition, coordinate by coordinate

Several lists of entries that each tile one region are superposed to a tiling of that region again,
in canonical form. Its pieces are cut where one of the lists starts an entry and have the owners
found at their first coordinate. `superpose_pointwise` says that these are right at all other
coordinates too: each coordinate lists the primary owners that the lists give it, in the order of
the lists and without repeats, and the same for secondary owners, less those that are primary owners
there.
-/

namespace ReplicaRing

/-! ### Unions in one mode -/

namespace Owners

theorem inMode_secondary (o : Owners) : o.inMode .secondary = o.secondary := rfl

theorem primary_union (lists : List Owners) :
    (union lists).primary = firstPlaces (lists.flatMap primary) :=
  eraseDups_eq_firstPlaces _

theorem secondary_union (lists : List Owners) :
    (union lists).secondary =
      (firstPlaces (lists.flatMap secondary)).filter fun id => id ∉ (union lists).primary := by
  rw [← eraseDups_eq_firstPlaces]
  unfold union
  simp only [List.contains_eq_mem, decide_not]

end Owners

/-! ### What entries list -/

/-- The nodes that entries list for a coordinate in a mode. -/
def Entry.ownersAt (entries : List Entry) (c : Nat) (mode : QueryMode) : List NodeId :=
  ((Run.valueAt? entries c).map fun o => o.inMode mode).getD []

namespace Entry

variable {region : Region} {entries : List Entry} {c : Nat} {mode : QueryMode}

theorem ownersAt_of_valueAt? {o : Owners} (h : Run.valueAt? entries c = some o) :
    ownersAt entries c mode = o.inMode mode := by
  simp [ownersAt, h]

/-- Entries list nobody outside the region that they tile. -/
theorem ownersAt_of_not_mem (h : Run.Tiles region entries) (hc : c ∉ region) :
    ownersAt entries c mode = [] := by
  have hnone : Run.valueAt? entries c = none := by
    rw [← Option.not_isSome_iff_eq_none, h.isSome_valueAt?]
    exact hc
  simp [ownersAt, hnone]

end Entry

/-- What the owners of a coordinate in several lists have in a mode is what the lists give it. -/
theorem flatMap_inMode_valueAt? (lists : List (List Entry)) (c : Nat) (mode : QueryMode) :
    (lists.filterMap (Run.valueAt? · c)).flatMap (fun o => o.inMode mode) =
      lists.flatMap fun entries => Entry.ownersAt entries c mode := by
  induction lists with
  | nil => rfl
  | cons entries rest ih =>
    cases h : Run.valueAt? entries c <;> simp [Entry.ownersAt, h, ih]

/-! ### Superposing -/

theorem superpose_merged (region : Region) (lists : List (List Entry)) :
    Run.Merged (superpose region lists) :=
  Run.merged_canonical _

/-- Lists of entries that each tile a region are superposed to entries that are in order, tile the
region and have no two neighbours with the same owners. Every coordinate lists the primary owners
that the lists give it, one list after the other, with later repeats dropped, and the secondary
owners in the same way, without those that are primary owners of the coordinate. -/
theorem superpose_pointwise (region : Region) (lists : List (List Entry))
    (h : ∀ entries ∈ lists, Run.Tiles region entries) :
    (superpose region lists).Pairwise (fun a b => a.region.last < b.region.first) ∧
    Run.Tiles region (superpose region lists) ∧
    (superpose region lists).IsChain (fun a b => a.owners ≠ b.owners) ∧
    ∀ c,
      Entry.ownersAt (superpose region lists) c .primary =
        firstPlaces (lists.flatMap fun entries => Entry.ownersAt entries c .primary) ∧
      Entry.ownersAt (superpose region lists) c .secondary =
        (firstPlaces (lists.flatMap fun entries => Entry.ownersAt entries c .secondary)).filter
          fun id => id ∉ Entry.ownersAt (superpose region lists) c .primary := by
  have htiles := superpose_tiles region lists
  refine ⟨htiles.pairwise, htiles, htiles.isChain_of_merged (superpose_merged region lists),
    fun c => ?_⟩
  by_cases hc : c ∈ region
  · have hvalue : Run.valueAt? (superpose region lists) c = some (unionAt lists c) :=
      valueAt?_superpose (fun entries hmem => (h entries hmem).inOrder)
        (fun entries hmem e he => (h entries hmem).bounds he) hc
        fun entries hmem => ((h entries hmem).isSome_valueAt? c).2 hc
    rw [Entry.ownersAt_of_valueAt? hvalue, Entry.ownersAt_of_valueAt? hvalue, unionAt,
      ← flatMap_inMode_valueAt?, ← flatMap_inMode_valueAt?]
    simp only [Owners.inMode_primary, Owners.inMode_secondary]
    exact ⟨Owners.primary_union _, Owners.secondary_union _⟩
  · have hlists : ∀ mode, (lists.flatMap fun entries => Entry.ownersAt entries c mode) = [] :=
      fun mode => List.flatMap_eq_nil_iff.2 fun entries hmem =>
        Entry.ownersAt_of_not_mem (h entries hmem) hc
    rw [Entry.ownersAt_of_not_mem htiles hc, Entry.ownersAt_of_not_mem htiles hc, hlists, hlists]
    exact ⟨rfl, rfl⟩

/-- The whole space in two lists, one cut after a quarter and one after an eighth. -/
def twoCuts : List (List Entry) :=
  [[⟨⟨0, 2 ^ 62 - 1, by decide, by decide⟩, ["a", "b"], ["c"]⟩,
      ⟨⟨2 ^ 62, Region.whole.last, by decide, Region.whole.last_lt⟩, ["b"], ["d", "a"]⟩],
    [⟨⟨0, 2 ^ 61 - 1, by decide, by decide⟩, ["c", "a"], ["b", "d"]⟩,
      ⟨⟨2 ^ 61, Region.whole.last, by decide, Region.whole.last_lt⟩, ["b"], ["a", "d", "c"]⟩]]

theorem superpose_pointwise_twoCuts :
    (∀ entries ∈ twoCuts, Run.Tiles Region.whole entries) ∧
      Entry.ownersAt (superpose Region.whole twoCuts) 9 .primary = ["a", "b", "c"] ∧
      Entry.ownersAt (superpose Region.whole twoCuts) 9 .secondary = ["d"] ∧
      Entry.ownersAt (superpose Region.whole twoCuts) (2 ^ 64 - 1) .primary = ["b"] ∧
      Entry.ownersAt (superpose Region.whole twoCuts) (2 ^ 64 - 1) .secondary =
        ["d", "a", "c"] := by
  have htiles : ∀ entries ∈ twoCuts, Run.Tiles Region.whole entries := by decide
  obtain ⟨-, -, -, hunion⟩ := superpose_pointwise Region.whole twoCuts htiles
  have hninth : Entry.ownersAt (superpose Region.whole twoCuts) 9 .primary = ["a", "b", "c"] := by
    rw [(hunion 9).1]
    decide +kernel
  have hlast : Entry.ownersAt (superpose Region.whole twoCuts) (2 ^ 64 - 1) .primary = ["b"] := by
    rw [(hunion (2 ^ 64 - 1)).1]
    decide +kernel
  refine ⟨htiles, hninth, ?_, hlast, ?_⟩
  · rw [(hunion 9).2, hninth]
    decide +kernel
  · rw [(hunion (2 ^ 64 - 1)).2, hlast]
    decide +kernel

end ReplicaRing
