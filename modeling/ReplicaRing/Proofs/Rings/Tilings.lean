import ReplicaRing.Proofs.ReplicaMaps.Changes
import ReplicaRing.Proofs.Results
import ReplicaRing.Proofs.Rings

/-!
# Which entries make a ring

`Ring.ofEntries?` sorts the entries, joins neighbours with the same owners and compares the ends of
what is left. Together this is a test for an exact cover (`Run.tiles_canonical_iff`): sorted runs
tile a region exactly when each of its coordinates lies in one of them and no other coordinate in
any, and joining two runs that meet hides neither a gap nor an overlap. The canonical form of an
exact cover stands for the value of the run that holds each coordinate
(`Run.Partition.valueAt?_canonical`), so it depends neither on the order of the runs
(`Run.Partition.canonical_eq_of_perm`) nor on how they were cut.

The main result is `Ring.ofEntries?_partition`, for rings and replica maps alike.
-/

namespace ReplicaRing

/-! ### The order of regions -/

theorem Region.precedes_iff {a b : Region} :
    a.precedes b = true ↔ a.first < b.first ∨ a.first = b.first ∧ a.last ≤ b.last := by
  unfold Region.precedes Region.compare
  rw [Ordering.isLE_then_iff_or, Nat.compare_eq_lt, Nat.compare_eq_eq, Nat.isLE_compare]

namespace Run

variable {α : Type}

theorem pairwise_first_sortBy (runs : List (Run α)) :
    (sortBy (fun a b => a.region.precedes b.region) runs).Pairwise
      fun a b => a.region.first ≤ b.region.first := by
  refine (pairwise_sortBy ?_ ?_ runs).imp fun {a b} hab => ?_
  · intro a b
    simp only [Region.precedes_iff]
    omega
  · intro a b c
    simp only [Region.precedes_iff]
    omega
  · rw [Region.precedes_iff] at hab
    omega

/-! ### Exact covers -/

/-- How many runs hold a coordinate. -/
def holders (runs : List (Run α)) (c : Nat) : Nat :=
  runs.countP fun run => decide (c ∈ run.region)

/-- Each coordinate of the region lies in exactly one run of the list, every other one in none. -/
def Partition (region : Region) (runs : List (Run α)) : Prop :=
  ∀ c, holders runs c = if c ∈ region then 1 else 0

theorem holders_cons (run : Run α) (rest : List (Run α)) (c : Nat) :
    holders (run :: rest) c = holders rest c + if c ∈ run.region then 1 else 0 := by
  simp [holders, List.countP_cons]

theorem holders_pos {runs : List (Run α)} {c : Nat} :
    0 < holders runs c ↔ ∃ run ∈ runs, c ∈ run.region := by
  simp [holders, List.countP_pos_iff]

theorem holders_perm {xs ys : List (Run α)} (h : xs.Perm ys) (c : Nat) :
    holders xs c = holders ys c :=
  h.countP_eq _

theorem Partition.perm {region : Region} {xs ys : List (Run α)} (h : xs.Perm ys) :
    Partition region xs ↔ Partition region ys := by
  unfold Partition
  simp only [holders_perm h]

theorem TilesFrom.holders {first last : Nat} {runs : List (Run α)}
    (h : TilesFrom first last runs) (c : Nat) :
    holders runs c = if first ≤ c ∧ c ≤ last then 1 else 0 := by
  induction runs generalizing first with
  | nil =>
    obtain rfl : first = last + 1 := h
    rw [if_neg (by omega)]
    rfl
  | cons run rest ih =>
    have hfirst := h.1
    have hle := h.2.le
    have hrun := run.region.first_le_last
    rw [holders_cons, ih h.2]
    simp only [Region.mem_iff]
    split_ifs <;> omega

/-- Runs sorted by their starts that hold each coordinate between two ends exactly once, and no
other, tile what lies between them. -/
theorem tilesFrom_of_holders {first last : Nat} {runs : List (Run α)}
    (sorted : runs.Pairwise fun a b => a.region.first ≤ b.region.first) (hle : first ≤ last + 1)
    (h : ∀ c, Run.holders runs c = if first ≤ c ∧ c ≤ last then 1 else 0) :
    TilesFrom first last runs := by
  induction runs generalizing first with
  | nil =>
    have hnone : Run.holders ([] : List (Run α)) first = 0 := rfl
    rw [h first] at hnone
    show first = last + 1
    split_ifs at hnone
    omega
  | cons run rest ih =>
    obtain ⟨hbehind, hrest⟩ := List.pairwise_cons.1 sorted
    have hrun := run.region.first_le_last
    -- Both ends of the first run lie between the two ends.
    have hwithin : ∀ c ∈ run.region, first ≤ c ∧ c ≤ last := by
      intro c hc
      have hholders := h c
      rw [holders_cons, if_pos hc] at hholders
      by_contra hout
      rw [if_neg hout] at hholders
      omega
    have hstart := hwithin run.region.first ⟨Nat.le_refl _, hrun⟩
    have hend := hwithin run.region.last ⟨hrun, Nat.le_refl _⟩
    -- Some run holds the first coordinate, and none starts before the first run.
    have hfirst : run.region.first = first := by
      obtain ⟨holder, hholder, hmem⟩ := holders_pos.1
        (show 0 < Run.holders (run :: rest) first by rw [h, if_pos (by omega)]; omega)
      rw [Region.mem_iff] at hmem
      rcases List.mem_cons.1 hholder with rfl | hholder
      · omega
      · have := hbehind holder hholder
        omega
    refine ⟨hfirst, ih hrest (by omega) fun c => ?_⟩
    have hholders := h c
    rw [holders_cons] at hholders
    simp only [Region.mem_iff] at hholders
    split_ifs at hholders ⊢ <;> omega

section Canonical

variable [DecidableEq α] {region : Region} {runs : List (Run α)}

/-- Sorting, merging and comparing ends is a test for an exact cover. -/
theorem tiles_canonical_iff : Tiles region (canonical runs) ↔ Partition region runs := by
  have hregion := region.first_le_last
  unfold Tiles canonical
  rw [tilesFrom_merge, ← Partition.perm (sortBy_perm _ runs)]
  constructor
  · exact fun h c => h.holders c
  · exact fun h => tilesFrom_of_holders (pairwise_first_sortBy runs) (by omega) h

/-- The canonical form of an exact cover has at each coordinate the value of the run that holds
it. -/
theorem Partition.valueAt?_canonical (h : Partition region runs) {run : Run α} (hrun : run ∈ runs)
    {c : Nat} (hc : c ∈ run.region) : valueAt? (canonical runs) c = some run.value := by
  have htiles := tiles_canonical_iff.2 h
  unfold Tiles canonical at htiles
  rw [tilesFrom_merge] at htiles
  unfold canonical
  rw [valueAt?_merge]
  exact htiles.valueAt?_of_mem (mem_sortBy.2 hrun) hc

/-- The order in which an exact cover is listed does not show in its canonical form. -/
theorem Partition.canonical_eq_of_perm (h : Partition region runs) {listed : List (Run α)}
    (hperm : listed.Perm runs) : canonical listed = canonical runs := by
  have hlisted := (Partition.perm hperm).2 h
  have htiles := tiles_canonical_iff.2 h
  have htiles' := tiles_canonical_iff.2 hlisted
  refine eq_of_valueAt? htiles'.inOrder htiles.inOrder (merged_canonical _) (merged_canonical _)
    fun c => ?_
  by_cases hc : c ∈ region
  · obtain ⟨run, hrun, hmem⟩ := holders_pos.1
      (show 0 < Run.holders runs c by rw [h, if_pos hc]; omega)
    rw [h.valueAt?_canonical hrun hmem, hlisted.valueAt?_canonical (hperm.mem_iff.2 hrun) hmem]
  · have hnone : ∀ {tiling : List (Run α)}, Tiles region tiling → valueAt? tiling c = none :=
      fun ht => Option.not_isSome_iff_eq_none.1 fun hsome => hc ((ht.isSome_valueAt? c).1 hsome)
    rw [hnone htiles, hnone htiles']

/-- Merging neither adds a value nor drops one. -/
theorem forall_value_mergeFrom {P : α → Prop} (run : Run α) (rest : List (Run α)) :
    (∀ merged ∈ mergeFrom run rest, P merged.value) ↔ ∀ run' ∈ run :: rest, P run'.value := by
  induction rest generalizing run with
  | nil => rfl
  | cons next rest ih =>
    rw [mergeFrom]
    split
    · rename_i h
      rw [ih]
      simp only [List.forall_mem_cons, ← h.1, and_self_left]
    · rw [List.forall_mem_cons, ih, List.forall_mem_cons (l := next :: rest)]

theorem forall_value_canonical {P : α → Prop} :
    (∀ run ∈ canonical runs, P run.value) ↔ ∀ run ∈ runs, P run.value := by
  have hsorted : (∀ run ∈ sortBy (fun a b => a.region.precedes b.region) runs, P run.value) ↔
      ∀ run ∈ runs, P run.value := by
    simp only [mem_sortBy]
  rw [← hsorted]
  unfold canonical
  cases sortBy (fun a b => a.region.precedes b.region) runs with
  | nil => rfl
  | cons run rest => exact forall_value_mergeFrom run rest

end Canonical

end Run

/-! ### Owners of coordinates -/

/-- Owners are what the queries for them give. -/
theorem Owners.eq_of_inMode {o o' : Owners} (h : ∀ mode, o.inMode mode = o'.inMode mode) :
    o = o' := by
  have hprimary := h .primary
  have hsecondary : o.secondary = o'.secondary := h .secondary
  rw [Owners.inMode_primary, Owners.inMode_primary] at hprimary
  cases o
  cases o'
  simp_all

/-! ### Rings -/

namespace Ring

variable {node : NodeId} {policy : String} {region : Region} {p s : Nat} {tolerance : Float}
  {entries : List Entry} {r : Ring}

theorem defect?_canonical_eq_none : defect? region (Run.canonical entries) = none ↔
    Run.Partition region entries ∧ ∀ e ∈ entries, e.HasPrimaries := by
  rw [defect?_eq_none, Run.tiles_canonical_iff]
  exact and_congr_right fun _ => Run.forall_value_canonical
    (P := fun o : Owners => o.primary ≠ [] ∧ o.primary.Nodup)

/-- Entries in any order make a ring exactly if they partition its region and have primary owners,
each once. -/
theorem exists_ofEntries?_iff :
    (∃ r, ofEntries? node policy region p s tolerance entries = .ok r) ↔
      Run.Partition region entries ∧ ∀ e ∈ entries, e.HasPrimaries := by
  rw [← defect?_canonical_eq_none]
  unfold ofEntries?
  split
  · rename_i defect hdefect
    simp [hdefect]
  · rename_i hnone
    simp [hnone]

theorem entries_of_ofEntries? (h : ofEntries? node policy region p s tolerance entries = .ok r) :
    r.entries.toList = Run.canonical entries := by
  unfold ofEntries? at h
  split at h
  · cases h
  · obtain rfl := Except.ok.inj h
    rfl

/-- A ring gives each coordinate the owners of the entry that it was made from. -/
theorem ownersAt_of_ofEntries? (h : ofEntries? node policy region p s tolerance entries = .ok r)
    {e : Entry} (he : e ∈ entries) {c : Nat} (hc : c ∈ e.region) (mode : QueryMode) :
    r.ownersAt c mode = e.owners.inMode mode := by
  have hpartition := (exists_ofEntries?_iff.1 ⟨r, h⟩).1
  apply ownersAt_of_valueAt?
  rw [entries_of_ofEntries? h]
  exact hpartition.valueAt?_canonical he hc

theorem ofEntries?_of_perm (h : ofEntries? node policy region p s tolerance entries = .ok r)
    {listed : List Entry} (hperm : listed.Perm entries) :
    ofEntries? node policy region p s tolerance listed = .ok r := by
  obtain ⟨hpartition, hprimaries⟩ := exists_ofEntries?_iff.1 ⟨r, h⟩
  obtain ⟨r', hr'⟩ := exists_ofEntries?_iff.2 ⟨(Run.Partition.perm hperm).2 hpartition,
    fun e he => hprimaries e (hperm.mem_iff.1 he)⟩
  rw [hr']
  refine congrArg Except.ok (eq_of_parts ?_)
  rw [parts_of_ofEntries? h, parts_of_ofEntries? hr', entries_of_ofEntries? h,
    entries_of_ofEntries? hr', hpartition.canonical_eq_of_perm hperm]

/-- Rings over one region differ in their entries only if they differ in the owners of some
coordinate. -/
theorem entries_eq_iff {a b : Ring} (hregion : a.region = b.region) :
    a.entries = b.entries ↔ ∀ c ∈ a.region, ∀ mode, a.ownersAt c mode = b.ownersAt c mode := by
  constructor
  · intro h c _ mode
    rw [ownersAt_eq, ownersAt_eq, h]
  · intro h
    refine Array.toList_inj.1 (entries_eq_of_valueAt? hregion fun c hc => ?_)
    obtain ⟨e, -, -, he⟩ := a.exists_entry hc
    obtain ⟨e', -, -, he'⟩ := b.exists_entry (hregion ▸ hc)
    have hsame : e.owners = e'.owners := Owners.eq_of_inMode fun mode => by
      rw [← a.ownersAt_of_valueAt? he, ← b.ownersAt_of_valueAt? he', h c hc]
    rw [he, he', hsame]

end Ring

/-! ### Replica maps -/

namespace ReplicaMap

variable {region : Region} {entries : List Entry} {m : ReplicaMap}

theorem exists_ofEntries?_iff :
    (∃ m, ofEntries? region entries = .ok m) ↔ Run.Partition region entries := by
  rw [← Run.tiles_canonical_iff, ← Run.coverageDefect?_eq_none]
  unfold ofEntries?
  split
  · rename_i defect hdefect
    simp [hdefect]
  · rename_i hnone
    simp [hnone]

theorem region_of_ofEntries? (h : ofEntries? region entries = .ok m) : m.region = region := by
  unfold ofEntries? at h
  split at h
  · cases h
  · obtain rfl := Except.ok.inj h
    rfl

theorem ownersAt_of_ofEntries? (h : ofEntries? region entries = .ok m) {e : Entry}
    (he : e ∈ entries) {c : Nat} (hc : c ∈ e.region) (mode : QueryMode) :
    m.ownersAt c mode = e.owners.inMode mode := by
  have hpartition := exists_ofEntries?_iff.1 ⟨m, h⟩
  apply ownersAt_of_valueAt?
  rw [entries_of_ofEntries?_eq_ok h]
  exact hpartition.valueAt?_canonical he hc

theorem ofEntries?_of_perm (h : ofEntries? region entries = .ok m) {listed : List Entry}
    (hperm : listed.Perm entries) : ofEntries? region listed = .ok m := by
  have hpartition := exists_ofEntries?_iff.1 ⟨m, h⟩
  obtain ⟨m', hm'⟩ := exists_ofEntries?_iff.2 ((Run.Partition.perm hperm).2 hpartition)
  rw [hm']
  refine congrArg Except.ok (eq_of_ownersOf? ?_ fun c => ?_)
  · rw [region_of_ofEntries? h, region_of_ofEntries? hm']
  · rw [ownersOf?_eq, ownersOf?_eq, entries_of_ofEntries?_eq_ok h, entries_of_ofEntries?_eq_ok hm',
      hpartition.canonical_eq_of_perm hperm]

theorem ownersAt_eq (m : ReplicaMap) (c : Nat) (mode : QueryMode) :
    m.ownersAt c mode = ((m.ownersOf? c).map fun o => o.inMode mode).getD [] := by
  unfold ownersAt ownersOf?
  rw [Option.map_map]
  rfl

/-- Maps over one region differ in their entries only if they differ in the servers of some
coordinate. -/
theorem entries_eq_iff {a b : ReplicaMap} (hregion : a.region = b.region) :
    a.entries = b.entries ↔ ∀ c ∈ a.region, ∀ mode, a.ownersAt c mode = b.ownersAt c mode := by
  constructor
  · intro h c _ mode
    rw [ownersAt_eq, ownersAt_eq, ownersOf?_eq, ownersOf?_eq, h]
  · intro h
    refine congrArg entries (eq_of_ownersOf? hregion fun c => ?_)
    by_cases hc : c ∈ a.region
    · obtain ⟨o, ho⟩ := Option.isSome_iff_exists.1 ((a.isSome_ownersOf? c).2 hc)
      obtain ⟨o', ho'⟩ := Option.isSome_iff_exists.1 ((b.isSome_ownersOf? c).2 (hregion ▸ hc))
      have hsame : o = o' := Owners.eq_of_inMode fun mode => by
        have hmode := h c hc mode
        rwa [ownersAt_eq, ownersAt_eq, ho, ho'] at hmode
      rw [ho, ho', hsame]
    · have hnone : ∀ {m : ReplicaMap}, c ∉ m.region → m.ownersOf? c = none := fun hout =>
        Option.not_isSome_iff_eq_none.1 fun hsome => hout ((isSome_ownersOf? _ c).1 hsome)
      rw [hnone hc, hnone (hregion ▸ hc)]

end ReplicaMap

/-! ### Exact covers and nothing else -/

/-- Entries, listed in any order, make a ring if and only if they partition its region and each of
them has primary owners and repeats none; they make a replica map if and only if they partition its
region. What is made has its entries in order, covers the region with them, has no two neighbours
with the same owners, gives each coordinate the owners of the entry that holds it, and is the same
for every order of the list. Over one region, entries are equal when the owners of all coordinates
are. -/
theorem Ring.ofEntries?_partition (node : NodeId) (policy : String) (region : Region) (p s : Nat)
    (tolerance : Float) (entries : List Entry) :
    ((∃ r, Ring.ofEntries? node policy region p s tolerance entries = .ok r) ↔
      Run.Partition region entries ∧ ∀ e ∈ entries, e.HasPrimaries) ∧
    (∀ r, Ring.ofEntries? node policy region p s tolerance entries = .ok r →
      r.region = region ∧
      r.entries.toList.Pairwise (fun a b => a.region.last < b.region.first) ∧
      Run.Tiles region r.entries.toList ∧
      r.entries.toList.IsChain (fun a b => a.owners ≠ b.owners) ∧
      (∀ e ∈ entries, ∀ c ∈ e.region, ∀ mode, r.ownersAt c mode = e.owners.inMode mode) ∧
      ∀ listed, listed.Perm entries →
        Ring.ofEntries? node policy region p s tolerance listed = .ok r) ∧
    ((∃ m, ReplicaMap.ofEntries? region entries = .ok m) ↔ Run.Partition region entries) ∧
    (∀ m, ReplicaMap.ofEntries? region entries = .ok m →
      m.region = region ∧
      m.entries.toList.Pairwise (fun a b => a.region.last < b.region.first) ∧
      Run.Tiles region m.entries.toList ∧
      m.entries.toList.IsChain (fun a b => a.owners ≠ b.owners) ∧
      (∀ e ∈ entries, ∀ c ∈ e.region, ∀ mode, m.ownersAt c mode = e.owners.inMode mode) ∧
      ∀ listed, listed.Perm entries → ReplicaMap.ofEntries? region listed = .ok m) ∧
    (∀ a b : Ring, a.region = b.region →
      (a.entries = b.entries ↔
        ∀ c ∈ a.region, ∀ mode, a.ownersAt c mode = b.ownersAt c mode)) ∧
    ∀ a b : ReplicaMap, a.region = b.region →
      (a.entries = b.entries ↔
        ∀ c ∈ a.region, ∀ mode, a.ownersAt c mode = b.ownersAt c mode) := by
  refine ⟨exists_ofEntries?_iff, fun r h => ?_, ReplicaMap.exists_ofEntries?_iff, fun m h => ?_,
    fun a b => entries_eq_iff, fun a b => ReplicaMap.entries_eq_iff⟩
  · obtain rfl : r.region = region := congrArg Parts.region (parts_of_ofEntries? h)
    exact ⟨rfl, r.tiles.pairwise, r.tiles, r.tiles.isChain_of_merged r.merged,
      fun e he c hc => ownersAt_of_ofEntries? h he hc, fun listed => ofEntries?_of_perm h⟩
  · obtain rfl := ReplicaMap.region_of_ofEntries? h
    exact ⟨rfl, m.tiles.pairwise, m.tiles, m.tiles.isChain_of_merged m.merged,
      fun e he c hc => ReplicaMap.ownersAt_of_ofEntries? h he hc,
      fun listed => ReplicaMap.ofEntries?_of_perm h⟩

/-- Three parts of the whole space, listed out of order; the last two have the same owners. -/
def threeParts : List Entry :=
  [⟨⟨2 ^ 63, 2 ^ 64 - 1, by decide, by decide⟩, ["b"], []⟩,
    ⟨⟨0, 10, by decide, by decide⟩, ["a"], ["b"]⟩,
    ⟨⟨11, 2 ^ 63 - 1, by decide, by decide⟩, ["b"], []⟩]

/-- Two parts of which the second one lies in the first. -/
def nestedParts : List Entry :=
  [⟨Region.whole, ["b"], []⟩, ⟨⟨10, 2 ^ 64 - 1, by decide, by decide⟩, ["b"], []⟩]

theorem Ring.ofEntries?_partition_threeParts :
    (Run.Partition Region.whole threeParts ∧
      ∃ r, Ring.ofEntries? "root" "standard" Region.whole 1 1 0.5 threeParts = .ok r ∧
        r.entries.size = 2 ∧ r.ownersAt (2 ^ 64 - 1) .all = ["b"] ∧
        Ring.ofEntries? "root" "standard" Region.whole 1 1 0.5 threeParts.reverse = .ok r) ∧
      ¬ Run.Partition Region.whole nestedParts := by
  have hok : (Ring.ofEntries? "root" "standard" Region.whole 1 1 0.5 threeParts).toOption.any
      (fun r => r.entries.size = 2) = true := by
    decide +kernel
  obtain ⟨r, hr, hsize⟩ := (Option.any_eq_true _ _).1 hok
  rw [toOption_eq_some] at hr
  obtain ⟨haccepted, hmade, -⟩ :=
    Ring.ofEntries?_partition "root" "standard" Region.whole 1 1 0.5 threeParts
  obtain ⟨-, -, -, -, howners, hlisted⟩ := hmade r hr
  refine ⟨⟨(haccepted.1 ⟨r, hr⟩).1, r, hr, of_decide_eq_true hsize, ?_,
    hlisted _ (List.reverse_perm _)⟩, fun hnested => ?_⟩
  · exact howners _ (List.mem_cons_self ..) _ (by decide) .all
  · have hrefused : (ReplicaMap.ofEntries? Region.whole nestedParts).toOption.isSome = false := by
      decide +kernel
    obtain ⟨-, -, hmap, -⟩ :=
      Ring.ofEntries?_partition "root" "standard" Region.whole 1 1 0.5 nestedParts
    obtain ⟨m, hm⟩ := hmap.2 hnested
    rw [hm] at hrefused
    cases hrefused

end ReplicaRing
