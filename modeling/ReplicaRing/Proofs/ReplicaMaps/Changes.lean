import ReplicaRing.Proofs.ReplicaMaps
import ReplicaRing.Proofs.Runs.Canonical
import ReplicaRing.ReplicaMap.Changes

/-!
# The difference of two replica maps

The changes between two maps over one region stand for the function that gives a coordinate its
owners before and after, where these differ (`ReplicaMap.changeAt?`). The region is cut wherever one
of the maps starts an entry, and between two cuts the function is constant. So the changes are the
canonical form of this function (`ReplicaMap.changes?_spec`), and what is true of the function is
true of them: they lead from the one map to the other, their reverse leads back, and there are none
only if the maps are the same (`ReplicaMap.changes_difference`).
-/

namespace ReplicaRing

/-! ### Who gains and who loses -/

namespace Handover

theorem mem_missingFrom {other ids : List NodeId} {id : NodeId} :
    id ∈ missingFrom other ids ↔ id ∈ ids ∧ id ∉ other := by
  unfold missingFrom
  rw [Std.ExtTreeSet.mem_toList, Std.ExtTreeSet.mem_ofList]
  simp

theorem pairwise_missingFrom (other ids : List NodeId) :
    (missingFrom other ids).Pairwise (· < ·) := by
  have hordered : (missingFrom other ids).Pairwise fun a b => compare a b = .lt :=
    Std.ExtTreeSet.ordered_toList
  exact hordered.imp fun h => compareOfLessAndEq_eq_lt.1 h

/-- The same region handed back. -/
def reverse (h : Handover) : Handover :=
  ⟨h.after, h.before⟩

end Handover

def Run.reverse (change : Change) : Change :=
  ⟨change.region, change.value.reverse⟩

namespace ReplicaMap

/-! ### The difference at a coordinate -/

/-- The owners of a coordinate; there are none outside the region. -/
def ownersOf? (m : ReplicaMap) (c : Nat) : Option Owners :=
  (m.entryAt? c).map Run.owners

theorem ownersOf?_eq (m : ReplicaMap) (c : Nat) :
    m.ownersOf? c = Run.valueAt? m.entries.toList c :=
  m.map_value_entryAt? c

theorem isSome_ownersOf? (m : ReplicaMap) (c : Nat) : (m.ownersOf? c).isSome ↔ c ∈ m.region := by
  rw [ownersOf?_eq]
  exact m.tiles.isSome_valueAt? c

/-- How the owners of a coordinate change. -/
def changeAt? (before after : ReplicaMap) (c : Nat) : Option Handover :=
  match before.ownersOf? c, after.ownersOf? c with
  | some old, some new => if old = new then none else some ⟨old, new⟩
  | _, _ => none

theorem changeAt?_eq_some_iff {before after : ReplicaMap} {c : Nat} {h : Handover} :
    before.changeAt? after c = some h ↔
      before.ownersOf? c = some h.before ∧ after.ownersOf? c = some h.after ∧ h.before ≠ h.after := by
  unfold changeAt?
  cases hold : before.ownersOf? c with
  | none => simp
  | some old =>
    cases hnew : after.ownersOf? c with
    | none => simp
    | some new =>
      by_cases hsame : old = new
      · simp only [hsame, if_true, Option.some.injEq]
        constructor
        · intro hnone
          cases hnone
        · rintro ⟨rfl, hafter, hne⟩
          exact absurd hafter hne
      · simp only [hsame, if_false, Option.some.injEq]
        constructor
        · rintro rfl
          exact ⟨rfl, rfl, hsame⟩
        · rintro ⟨rfl, rfl, -⟩
          rfl

theorem changeAt?_swap (before after : ReplicaMap) (c : Nat) :
    after.changeAt? before c = (before.changeAt? after c).map Handover.reverse := by
  ext h
  rw [Option.map_eq_some_iff, changeAt?_eq_some_iff]
  constructor
  · rintro ⟨hafter, hbefore, hne⟩
    exact ⟨h.reverse, changeAt?_eq_some_iff.2 ⟨hbefore, hafter, hne.symm⟩, rfl⟩
  · rintro ⟨h, hchange, rfl⟩
    obtain ⟨hbefore, hafter, hne⟩ := changeAt?_eq_some_iff.1 hchange
    exact ⟨hafter, hbefore, hne.symm⟩

/-- Where the owners do not change, both maps give the same. -/
theorem ownersOf?_eq_of_changeAt? {before after : ReplicaMap} (hregion : before.region = after.region)
    {c : Nat} (h : before.changeAt? after c = none) : after.ownersOf? c = before.ownersOf? c := by
  cases hold : before.ownersOf? c with
  | none =>
    have hout : c ∉ after.region := by
      rw [← hregion, ← isSome_ownersOf?, hold]
      simp
    rw [← isSome_ownersOf?] at hout
    simpa using hout
  | some old =>
    cases hnew : after.ownersOf? c with
    | none =>
      have hout : c ∉ before.region := by
        rw [hregion, ← isSome_ownersOf?, hnew]
        simp
      rw [← isSome_ownersOf?, hold] at hout
      simp at hout
    | some new =>
      by_contra hne
      have hchange : before.changeAt? after c = some ⟨old, new⟩ :=
        changeAt?_eq_some_iff.2 ⟨hold, hnew, fun hsame => hne (congrArg some hsame.symm)⟩
      rw [h] at hchange
      cases hchange

/-- Maps that give every coordinate the same owners are the same. -/
theorem eq_of_ownersOf? {a b : ReplicaMap} (hregion : a.region = b.region)
    (h : ∀ c, a.ownersOf? c = b.ownersOf? c) : a = b := by
  have hentries : a.entries.toList = b.entries.toList := by
    refine Run.eq_of_valueAt? a.tiles.inOrder b.tiles.inOrder a.merged b.merged fun c => ?_
    rw [← ownersOf?_eq, ← ownersOf?_eq, h]
  have hsame : a.entries = b.entries := Array.toList_inj.1 hentries
  cases a
  cases b
  simp_all

/-! ### The changes as runs -/

theorem changeWithin?_eq (before after : ReplicaMap) (piece : Region) :
    before.changeWithin? after piece =
      (before.changeAt? after piece.first).map (Run.mk piece) := by
  unfold changeWithin? changeAt? ownersOf?
  cases before.entryAt? piece.first with
  | none => rfl
  | some old =>
    cases after.entryAt? piece.first with
    | none => rfl
    | some new =>
      show (if old.owners = new.owners then none else some _) =
        (if old.owners = new.owners then none else some _ : Option Handover).map _
      split <;> rfl

/-- The owners of a map change only where it starts an entry. -/
theorem ownersOf?_eq_of_no_start (m : ReplicaMap) {a b : Nat} (hfirst : m.region.first ≤ a)
    (hab : a ≤ b) (hb : b ≤ m.region.last)
    (hnone : ∀ e ∈ m.entries.toList, e.region.first ≤ b → e.region.first ≤ a) :
    m.ownersOf? a = m.ownersOf? b := by
  rw [ownersOf?_eq, ownersOf?_eq]
  exact m.tiles.valueAt?_eq_of_no_start hfirst hab hb hnone

/-- A map starts an entry at the start of its region. -/
theorem exists_entry_first (m : ReplicaMap) :
    ∃ e ∈ m.entries.toList, e.region.first = m.region.first := by
  have htiles := m.tiles
  have hle := m.region.first_le_last
  cases hentries : m.entries.toList with
  | nil =>
    rw [hentries] at htiles
    have hend : m.region.first = m.region.last + 1 := htiles
    omega
  | cons e rest =>
    rw [hentries] at htiles
    exact ⟨e, List.mem_cons_self .., htiles.1⟩

/-- The places where one of two maps starts an entry, in order. -/
def starts (before after : ReplicaMap) : List Nat :=
  sortedDistinct ((before.entries.toList ++ after.entries.toList).map fun e => e.region.first)

/-- The region cut wherever one of two maps starts an entry, each piece with its change if it has
one. -/
def pieces (before after : ReplicaMap) : List (Run (Option Handover)) :=
  (cutAt before.region.last (starts before after)).map fun piece =>
    ⟨piece, before.changeAt? after piece.first⟩

variable {before after : ReplicaMap}

theorem mem_starts {c : Nat} : c ∈ starts before after ↔
    ∃ e, (e ∈ before.entries.toList ∨ e ∈ after.entries.toList) ∧ e.region.first = c := by
  unfold starts
  rw [mem_sortedDistinct, List.mem_map]
  simp only [List.mem_append]

theorem mem_region_of_mem_starts (hregion : before.region = after.region) {c : Nat}
    (hc : c ∈ starts before after) : c ∈ before.region := by
  obtain ⟨e, he | he, rfl⟩ := mem_starts.1 hc
  · have hbounds := before.tiles.bounds he
    exact ⟨hbounds.1, Nat.le_trans e.region.first_le_last hbounds.2⟩
  · have hbounds := after.tiles.bounds he
    rw [hregion]
    exact ⟨hbounds.1, Nat.le_trans e.region.first_le_last hbounds.2⟩

/-- The first start is that of the region, and the others come in order. -/
theorem exists_starts_eq_cons (hregion : before.region = after.region) :
    ∃ rest, starts before after = before.region.first :: rest ∧
      (before.region.first :: rest).Pairwise (· < ·) ∧
      ∀ c ∈ before.region.first :: rest, c ≤ before.region.last := by
  have hsorted : (starts before after).Pairwise (· < ·) := pairwise_sortedDistinct _
  have hinside : ∀ c ∈ starts before after, c ∈ before.region := fun c =>
    mem_region_of_mem_starts hregion
  obtain ⟨e, he, hfirst⟩ := before.exists_entry_first
  obtain ⟨rest, hstarts⟩ := exists_eq_cons_of_le (mem_starts.2 ⟨e, Or.inl he, hfirst⟩) hsorted
    fun c hc => (hinside c hc).1
  rw [hstarts] at hsorted hinside
  exact ⟨rest, hstarts, hsorted, fun c hc => (hinside c hc).2⟩

/-- From one start to the next the change stays the same. -/
theorem changeAt?_eq_of_no_start (hregion : before.region = after.region) {a b : Nat}
    (ha : a ∈ before.region) (hab : a ≤ b) (hb : b ≤ before.region.last)
    (hnone : ∀ c ∈ starts before after, c ≤ b → c ≤ a) :
    before.changeAt? after a = before.changeAt? after b := by
  have hbefore : before.ownersOf? a = before.ownersOf? b :=
    before.ownersOf?_eq_of_no_start ha.1 hab hb fun e he =>
      hnone _ (mem_starts.2 ⟨e, Or.inl he, rfl⟩)
  rw [hregion] at ha hb
  have hafter : after.ownersOf? a = after.ownersOf? b :=
    after.ownersOf?_eq_of_no_start ha.1 hab hb fun e he =>
      hnone _ (mem_starts.2 ⟨e, Or.inr he, rfl⟩)
  unfold changeAt?
  rw [hbefore, hafter]

theorem tilesFrom_pieces (hregion : before.region = after.region) :
    Run.TilesFrom before.region.first before.region.last (pieces before after) := by
  obtain ⟨rest, hstarts, hsorted, hle⟩ := exists_starts_eq_cons hregion
  unfold pieces
  rw [hstarts]
  exact Run.tilesFrom_cutAt before.region.last_lt hsorted hle fun piece =>
    before.changeAt? after piece.first

/-- The piece that holds a coordinate has its change. -/
theorem valueAt?_pieces (hregion : before.region = after.region) {c : Nat}
    (hc : c ∈ before.region) :
    Run.valueAt? (pieces before after) c = some (before.changeAt? after c) := by
  obtain ⟨rest, hstarts, hsorted, hle⟩ := exists_starts_eq_cons hregion
  unfold pieces
  rw [hstarts]
  refine Run.valueAt?_cutAt before.region.last_lt hsorted hle hc.1 hc.2 ?_
  rw [← hstarts]
  intro a ha hab hnone
  exact changeAt?_eq_of_no_start hregion (mem_region_of_mem_starts hregion ha) hab hc.2 hnone

/-- The changes are the pieces that have one, with neighbours joined. -/
theorem changes?_eq (hregion : before.region = after.region) :
    before.changes? after = .ok (Run.merge (Run.present (pieces before after))) := by
  have hpieces : (cutAt before.region.last (starts before after)).filterMap
      (before.changeWithin? after) = Run.present (pieces before after) := by
    unfold Run.present pieces
    rw [List.filterMap_map]
    exact List.filterMap_congr fun piece _ => before.changeWithin?_eq after piece
  rw [← hpieces, changes?, if_pos hregion, starts]

/-- The changes between two maps over one region are in order, within the region and merged, and
they give a coordinate its change. -/
theorem changes?_spec (hregion : before.region = after.region) :
    ∃ changes, before.changes? after = .ok changes ∧ Run.InOrder changes ∧
      (∀ change ∈ changes, before.region.Encloses change.region) ∧ Run.Merged changes ∧
      ∀ c, Run.valueAt? changes c = before.changeAt? after c := by
  have htiles := tilesFrom_pieces hregion
  refine ⟨_, changes?_eq hregion, htiles.inOrder.present.merge, ?_, Run.merged_merge _, fun c => ?_⟩
  · intro change hchange
    obtain ⟨⟨a, ha, hfirst⟩, b, hb, hlast⟩ := Run.ends_of_mem_merge hchange
    obtain ⟨whole, hwhole, ha⟩ := Run.exists_of_mem_present ha
    obtain ⟨whole', hwhole', hb⟩ := Run.exists_of_mem_present hb
    constructor
    · rw [hfirst, ← ha]
      exact (htiles.bounds hwhole).1
    · rw [hlast, ← hb]
      exact (htiles.bounds hwhole').2
  · rw [Run.valueAt?_merge, htiles.inOrder.valueAt?_present]
    by_cases hc : c ∈ before.region
    · rw [valueAt?_pieces hregion hc]
      rfl
    · -- Outside the region there are neither pieces nor owners.
      have hnone : before.ownersOf? c = none := by
        rw [← isSome_ownersOf?] at hc
        simpa using hc
      have hout : Run.valueAt? (pieces before after) c = none := by
        rw [← Option.not_isSome_iff_eq_none, htiles.isSome_valueAt?]
        exact hc
      rw [hout]
      simp [changeAt?, hnone]

/-! ### What the changes are -/

/-- The owners of a coordinate once changes are carried out: the new ones where a change holds it,
and the old ones elsewhere. -/
def ownersAfter? (m : ReplicaMap) (changes : List Change) (c : Nat) : Option Owners :=
  ((Run.valueAt? changes c).map Handover.after).or (m.ownersOf? c)

theorem ownersAfter?_eq (hregion : before.region = after.region)
    {changes : List Change} (hchanges : ∀ c, Run.valueAt? changes c = before.changeAt? after c)
    (c : Nat) : before.ownersAfter? changes c = after.ownersOf? c := by
  unfold ownersAfter?
  rw [hchanges]
  cases hchange : before.changeAt? after c with
  | none => exact (ownersOf?_eq_of_changeAt? hregion hchange).symm
  | some h => exact (changeAt?_eq_some_iff.1 hchange).2.1.symm

/-- The changes back are the changes reversed. -/
theorem changes?_swap (hregion : before.region = after.region)
    {changes : List Change} (hchanges : before.changes? after = .ok changes) :
    after.changes? before = .ok (changes.map Run.reverse) := by
  obtain ⟨forth, hforth, horder, -, hmerged, hvalue⟩ := changes?_spec hregion
  obtain rfl := Except.ok.inj (hforth.symm.trans hchanges)
  obtain ⟨back, hback, horder', -, hmerged', hvalue'⟩ := changes?_spec hregion.symm
  rw [hback]
  refine congrArg _ (Run.eq_of_valueAt? horder' (horder.map fun _ => rfl) hmerged'
    (hmerged.map (fun _ => rfl) fun a b hsame => ?_) fun c => ?_)
  · have hreverse : a.value.reverse.reverse = b.value.reverse.reverse :=
      congrArg Handover.reverse hsame
    exact hreverse
  · rw [hvalue', changeAt?_swap, ← hvalue]
    exact (Run.valueAt?_map (f := Run.reverse) (fun _ => rfl) (fun _ => rfl) c).symm

/-- There are no changes only between a map and itself. -/
theorem changes_eq_nil_iff (hregion : before.region = after.region)
    {changes : List Change} (horder : Run.InOrder changes)
    (hchanges : ∀ c, Run.valueAt? changes c = before.changeAt? after c) :
    changes = [] ↔ before = after := by
  constructor
  · rintro rfl
    refine eq_of_ownersOf? hregion fun c => ?_
    exact (ownersOf?_eq_of_changeAt? hregion (hchanges c).symm).symm
  · rintro rfl
    refine List.eq_nil_iff_forall_not_mem.2 fun change hchange => ?_
    have hvalue := horder.valueAt?_of_mem hchange ⟨Nat.le_refl _, change.region.first_le_last⟩
    rw [hchanges, changeAt?_eq_some_iff] at hvalue
    exact hvalue.2.2 (Option.some.inj (hvalue.1.symm.trans hvalue.2.1))

/-- Between two maps over one region there are changes; they

* come in order, do not overlap, lie in the region, and no two neighbours could be one;
* hold exactly the coordinates whose owners differ, with the owners before and after;
* lead from the first map to the second, and reversed they are the changes back;
* are none at all only if the maps are the same;
* name as gaining, or losing, the servers that are listed only after, or only before.

There are no changes between maps over different regions. -/
theorem changes_difference (before after : ReplicaMap) :
    (before.region = after.region → ∃ changes, before.changes? after = .ok changes ∧
      changes.Pairwise (fun a b => a.region.last < b.region.first) ∧
      (∀ change ∈ changes, before.region.Encloses change.region) ∧
      Run.Merged changes ∧
      (∀ c old new, (∃ change ∈ changes, c ∈ change.region ∧ change.value = ⟨old, new⟩) ↔
        before.ownersOf? c = some old ∧ after.ownersOf? c = some new ∧ old ≠ new) ∧
      (∀ c, before.ownersAfter? changes c = after.ownersOf? c) ∧
      after.changes? before = .ok (changes.map Run.reverse) ∧
      (changes = [] ↔ before = after) ∧
      ∀ change ∈ changes,
        (change.value.gains.Pairwise (· < ·) ∧ ∀ id, id ∈ change.value.gains ↔
          id ∈ change.value.after.every ∧ id ∉ change.value.before.every) ∧
        (change.value.losses.Pairwise (· < ·) ∧ ∀ id, id ∈ change.value.losses ↔
          id ∈ change.value.before.every ∧ id ∉ change.value.after.every)) ∧
    (before.region ≠ after.region → (before.changes? after).mapError Error.invalidRing =
      .error (.invalidRing (.differentRegions before.region after.region))) := by
  refine ⟨fun hregion => ?_, fun hregion => ?_⟩
  · obtain ⟨changes, hok, horder, hinside, hmerged, hvalue⟩ := changes?_spec hregion
    refine ⟨changes, hok, horder, hinside, hmerged, fun c old new => ?_,
      ownersAfter?_eq hregion hvalue, changes?_swap hregion hok,
      changes_eq_nil_iff hregion horder hvalue, fun change _ => ?_⟩
    · -- The change that holds a coordinate is its value.
      rw [← changeAt?_eq_some_iff (h := ⟨old, new⟩), ← hvalue]
      constructor
      · rintro ⟨change, hchange, hc, hsame⟩
        rw [horder.valueAt?_of_mem hchange hc, hsame]
      · exact Run.mem_of_valueAt?_eq_some
    · exact ⟨⟨Handover.pairwise_missingFrom _ _, fun _ => Handover.mem_missingFrom⟩,
        Handover.pairwise_missingFrom _ _, fun _ => Handover.mem_missingFrom⟩
  · unfold changes?
    rw [if_neg hregion]
    rfl

/-! Maps over one region that start their entries at different places, so that each change starts
where one map starts an entry and ends where the other is about to start one. -/

def earlier : ReplicaMap where
  region := ⟨0, 29, by decide, by decide⟩
  entries := #[⟨⟨0, 12, by decide, by decide⟩, ["a"], ["b"]⟩,
    ⟨⟨13, 29, by decide, by decide⟩, ["b"], ["a"]⟩]
  tiles := by decide
  merged := by decide

def later : ReplicaMap where
  region := ⟨0, 29, by decide, by decide⟩
  entries := #[⟨⟨0, 8, by decide, by decide⟩, ["a"], ["b"]⟩,
    ⟨⟨9, 17, by decide, by decide⟩, ["c"], ["a"]⟩, ⟨⟨18, 29, by decide, by decide⟩, ["b"], ["a"]⟩]
  tiles := by decide
  merged := by decide

def earlierToLater : List Change :=
  [⟨⟨9, 12, by decide, by decide⟩, ⟨["a"], ["b"]⟩, ⟨["c"], ["a"]⟩⟩,
    ⟨⟨13, 17, by decide, by decide⟩, ⟨["b"], ["a"]⟩, ⟨["c"], ["a"]⟩⟩]

def narrower : ReplicaMap where
  region := ⟨0, 12, by decide, by decide⟩
  entries := #[⟨⟨0, 12, by decide, by decide⟩, ["a"], ["b"]⟩]
  tiles := by decide
  merged := by decide

theorem changes_difference_earlier :
    earlier.region = later.region ∧ earlier.changes? later = .ok earlierToLater ∧
      (∀ c, earlier.ownersAfter? earlierToLater c = later.ownersOf? c) ∧
      later.changes? earlier = .ok (earlierToLater.map Run.reverse) ∧
      earlier.region ≠ narrower.region ∧ (earlier.changes? narrower).mapError Error.invalidRing =
        .error (.invalidRing (.differentRegions earlier.region narrower.region)) := by
  have hregion : earlier.region = later.region := rfl
  have hdifferent : earlier.region ≠ narrower.region := by decide
  obtain ⟨changes, hok, -, -, -, -, hafter, hback, -⟩ := (changes_difference earlier later).1 hregion
  have hchanges : earlier.changes? later = .ok earlierToLater := by decide +kernel
  obtain rfl := Except.ok.inj (hok.symm.trans hchanges)
  exact ⟨hregion, hchanges, hafter, hback, hdifferent,
    (changes_difference earlier narrower).2 hdifferent⟩

end ReplicaMap

end ReplicaRing
