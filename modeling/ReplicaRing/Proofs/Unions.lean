import ReplicaRing.Owners
import Mathlib.Algebra.GroupWithZero.Nat
import Mathlib.Data.List.Induction
import Mathlib.Data.List.Nodup

/-!
# Unions of owners

A union lists what stands in one of its lists (`Owners.mem_primary_union`,
`Owners.mem_every_union`), and nothing twice (`Owners.nodup_every_union`): each id stands where it came
up first (`eraseDups_eq_firstPlaces`). Where each owner of a
coordinate is resolved further down, the owners that come up are such a union (`Owners.through`). If
what comes up from different primary owners is different, no primary copy is lost in it
(`Owners.length_primary_through`). Leaving owners out before or after makes no difference, if nothing
comes up from those that are left out before (`Owners.filter_through`).
-/

namespace ReplicaRing

theorem nodup_eraseDups {α : Type} [BEq α] [LawfulBEq α] : (xs : List α) → xs.eraseDups.Nodup
  | [] => List.nodup_nil
  | x :: rest => by
    rw [List.eraseDups_cons, List.nodup_cons, List.mem_eraseDups]
    exact ⟨by simp, nodup_eraseDups _⟩
termination_by xs => xs.length
decreasing_by exact Nat.lt_succ_of_le (List.length_filter_le ..)

theorem eraseDups_of_nodup {α : Type} [BEq α] [LawfulBEq α] {xs : List α} (h : xs.Nodup) :
    xs.eraseDups = xs := by
  induction xs with
  | nil => rfl
  | cons x rest ih =>
    obtain ⟨hx, hrest⟩ := List.nodup_cons.1 h
    have hfilter : (rest.filter fun y => !y == x) = rest := by
      rw [List.filter_eq_self]
      intro y hy
      have hne : y ≠ x := fun heq => hx (heq ▸ hy)
      simpa using hne
    rw [List.eraseDups_cons, hfilter, ih hrest]

/-- Leaving elements out before or after the repeats makes no difference. -/
theorem filter_eraseDups {α : Type} [BEq α] [LawfulBEq α] (p : α → Bool) :
    (xs : List α) → xs.eraseDups.filter p = (xs.filter p).eraseDups
  | [] => rfl
  | x :: rest => by
    have hrest := filter_eraseDups p (rest.filter fun y => !y == x)
    rw [List.eraseDups_cons, List.filter_cons, List.filter_cons, hrest, List.filter_comm]
    split
    · rw [List.eraseDups_cons]
    · rename_i hx
      -- What is left out is no repeat of anything that stays.
      have hsame : (rest.filter p).filter (fun y => !y == x) = rest.filter p := by
        refine List.filter_eq_self.2 fun y hy => ?_
        have hne : y ≠ x := fun heq => hx (heq ▸ List.of_mem_filter hy)
        simpa using hne
      rw [hsame]
termination_by xs => xs.length
decreasing_by exact Nat.lt_succ_of_le (List.length_filter_le ..)

/-- A list with later repeats dropped: what stays is each element that stands nowhere further left. -/
def firstPlaces {α : Type} [DecidableEq α] (xs : List α) : List α :=
  (xs.zipIdx.filter fun (x, i) => x ∉ xs.take i).map Prod.fst

/-- An element at the end stays if it is new. -/
theorem firstPlaces_concat {α : Type} [DecidableEq α] (xs : List α) (x : α) :
    firstPlaces (xs ++ [x]) = firstPlaces xs ++ if x ∈ xs then [] else [x] := by
  have hinit : (xs.zipIdx.filter fun (y, i) => y ∉ (xs ++ [x]).take i) =
      xs.zipIdx.filter fun (y, i) => y ∉ xs.take i := by
    refine List.filter_congr fun (y, i) hmem => ?_
    obtain ⟨-, hi, -⟩ := List.mem_zipIdx hmem
    dsimp only
    rw [List.take_append_of_le_length (by omega)]
  have hlast : ([x].zipIdx xs.length).filter (fun (y, i) => y ∉ (xs ++ [x]).take i) =
      if x ∈ xs then [] else [(x, xs.length)] := by
    by_cases hx : x ∈ xs <;> simp [hx]
  unfold firstPlaces
  rw [List.zipIdx_append, List.filter_append, List.map_append, hinit, Nat.zero_add, hlast]
  split <;> rfl

theorem eraseDups_eq_firstPlaces {α : Type} [DecidableEq α] (xs : List α) :
    xs.eraseDups = firstPlaces xs := by
  induction xs using List.reverseRecOn with
  | nil => rfl
  | append_singleton xs x ih =>
    rw [firstPlaces_concat, ← ih, List.eraseDups_append]
    by_cases hx : x ∈ xs <;> simp [List.removeAll, List.eraseDups_cons, hx]

theorem flatMap_filter_of_nil {α β : Type} {f : α → List β} {keep : α → Bool} {xs : List α}
    (h : ∀ x ∈ xs, keep x = false → f x = []) : (xs.filter keep).flatMap f = xs.flatMap f := by
  induction xs with
  | nil => rfl
  | cons x rest ih =>
    have hrest := ih fun y hy => h y (List.mem_cons_of_mem _ hy)
    cases hx : keep x with
    | true => rw [List.filter_cons_of_pos hx, List.flatMap_cons, List.flatMap_cons, hrest]
    | false =>
      rw [List.filter_cons_of_neg (by simp [hx]), List.flatMap_cons, hrest,
        h x (List.mem_cons_self ..) hx, List.nil_append]

namespace Owners

variable {lists : List Owners} {id : NodeId}

theorem mem_every {o : Owners} : id ∈ o.every ↔ id ∈ o.primary ∨ id ∈ o.secondary :=
  List.mem_append

theorem mem_primary_union : id ∈ (union lists).primary ↔ ∃ o ∈ lists, id ∈ o.primary := by
  unfold union
  rw [List.mem_eraseDups, List.mem_flatMap]

theorem mem_every_union : id ∈ (union lists).every ↔ ∃ o ∈ lists, id ∈ o.every := by
  have hsecondary : id ∈ (union lists).secondary ↔
      (∃ o ∈ lists, id ∈ o.secondary) ∧ id ∉ (union lists).primary := by
    unfold union
    simp only [List.mem_filter, List.mem_eraseDups, List.mem_flatMap]
    simp
  rw [mem_every, hsecondary, mem_primary_union]
  simp only [mem_every]
  constructor
  · rintro (⟨o, ho, hid⟩ | ⟨⟨o, ho, hid⟩, -⟩)
    · exact ⟨o, ho, Or.inl hid⟩
    · exact ⟨o, ho, Or.inr hid⟩
  · rintro ⟨o, ho, hid⟩
    by_cases hprimary : ∃ o ∈ lists, id ∈ o.primary
    · exact Or.inl hprimary
    · refine Or.inr ⟨⟨o, ho, hid.resolve_left fun hid => hprimary ⟨o, ho, hid⟩⟩, hprimary⟩

/-- A union repeats no owner, neither in one list nor across the two. -/
theorem nodup_every_union (lists : List Owners) : (union lists).every.Nodup := by
  unfold every union
  rw [List.nodup_append]
  refine ⟨nodup_eraseDups _, (nodup_eraseDups _).filter _, fun a ha b hb heq => ?_⟩
  subst heq
  simp_all

/-! ### Owners that are resolved further down -/

/-- The owners that come up through some owners, given what comes up from each of them: from a
secondary owner, secondary owners only. -/
def through (o : Owners) (under : NodeId → Owners) : Owners :=
  union (o.primary.map under ++ (o.secondary.map under).map demote)

variable {o : Owners} {under : NodeId → Owners}

theorem mem_primary_through :
    id ∈ (o.through under).primary ↔ ∃ child ∈ o.primary, id ∈ (under child).primary := by
  unfold through
  rw [mem_primary_union]
  constructor
  · rintro ⟨below, hbelow, hid⟩
    rcases List.mem_append.1 hbelow with hbelow | hbelow
    · obtain ⟨child, hchild, rfl⟩ := List.mem_map.1 hbelow
      exact ⟨child, hchild, hid⟩
    · obtain ⟨_, -, rfl⟩ := List.mem_map.1 hbelow
      cases hid
  · rintro ⟨child, hchild, hid⟩
    exact ⟨under child, List.mem_append_left _ (List.mem_map_of_mem hchild), hid⟩

theorem exists_of_mem_every_through (h : id ∈ (o.through under).every) :
    ∃ child ∈ o.every, id ∈ (under child).every := by
  obtain ⟨below, hbelow, hid⟩ := mem_every_union.1 h
  rcases List.mem_append.1 hbelow with hbelow | hbelow
  · obtain ⟨child, hchild, rfl⟩ := List.mem_map.1 hbelow
    exact ⟨child, mem_every.2 (Or.inl hchild), hid⟩
  · obtain ⟨_, hplain, rfl⟩ := List.mem_map.1 hbelow
    obtain ⟨child, hchild, rfl⟩ := List.mem_map.1 hplain
    exact ⟨child, mem_every.2 (Or.inr hchild), hid⟩

/-- If what comes up from different primary owners is different, none of it is lost. -/
theorem length_primary_through (ho : o.primary.Nodup)
    (hunder : ∀ child ∈ o.primary, (under child).primary.Nodup)
    (hapart : ∀ a ∈ o.primary, ∀ b ∈ o.primary, ∀ id ∈ (under a).primary,
      id ∈ (under b).primary → a = b) :
    (o.through under).primary.length =
      (o.primary.map fun child => (under child).primary.length).sum := by
  have hdemoted : ((o.secondary.map under).map demote).flatMap Owners.primary = [] := by
    rw [List.flatMap_map]
    exact List.flatMap_eq_nil_iff.2 fun _ _ => rfl
  have hprimary : (o.through under).primary =
      (o.primary.flatMap fun child => (under child).primary).eraseDups := by
    unfold through union
    rw [List.flatMap_append, hdemoted, List.append_nil, List.flatMap_map]
  have hnodup : (o.primary.flatMap fun child => (under child).primary).Nodup := by
    refine List.nodup_flatMap.2 ⟨hunder, ho.imp_of_mem fun ha hb hne => ?_⟩
    exact fun id hida hidb => hne (hapart _ ha _ hb id hida hidb)
  rw [hprimary, eraseDups_of_nodup hnodup, List.length_flatMap]

/-! ### Leaving owners out -/

variable {keep : NodeId → Bool}

theorem filter_every (o : Owners) : (o.filter keep).every = o.every.filter keep :=
  (List.filter_append ..).symm

theorem filter_demote (o : Owners) : o.demote.filter keep = (o.filter keep).demote := by
  unfold demote
  rw [filter_every]
  rfl

theorem filter_union (lists : List Owners) :
    (union lists).filter keep = union (lists.map fun o => o.filter keep) := by
  have hprimary : (lists.flatMap primary).eraseDups.filter keep =
      ((lists.map fun o => o.filter keep).flatMap primary).eraseDups := by
    rw [filter_eraseDups, List.filter_flatMap, List.flatMap_map]
    rfl
  have hsecondary : (lists.flatMap secondary).eraseDups.filter keep =
      ((lists.map fun o => o.filter keep).flatMap secondary).eraseDups := by
    rw [filter_eraseDups, List.filter_flatMap, List.flatMap_map]
    rfl
  unfold union
  dsimp only
  rw [← hprimary, ← hsecondary]
  refine congrArg (Owners.mk _) ?_
  rw [List.filter_comm]
  refine List.filter_congr fun id hid => ?_
  -- An owner that stays is a primary owner as much as before.
  have hkeep : keep id = true := List.of_mem_filter hid
  simp [hkeep]

theorem union_congr {lists lists' : List Owners}
    (hprimary : lists.flatMap primary = lists'.flatMap primary)
    (hsecondary : lists.flatMap secondary = lists'.flatMap secondary) :
    union lists = union lists' := by
  unfold union
  rw [hprimary, hsecondary]

/-- Owners from whom nothing comes up may be left out. -/
theorem through_filter (h : ∀ id ∈ o.every, keep id = false → under id = ⟨[], []⟩) :
    (o.filter keep).through under = o.through under := by
  -- Of the lists that are united, those that are left out hold nothing.
  have hlists : ∀ {ids : List NodeId} {f : Owners → List NodeId},
      (∀ id ∈ ids, id ∈ o.every) → f ⟨[], []⟩ = [] →
        ((ids.filter keep).map under).flatMap f = (ids.map under).flatMap f := by
    intro ids f hids hf
    rw [List.flatMap_map, List.flatMap_map]
    refine flatMap_filter_of_nil fun id hid hout => ?_
    rw [h id (hids id hid) hout, hf]
  have hprimary : ∀ id ∈ o.primary, id ∈ o.every := fun id hid => mem_every.2 (Or.inl hid)
  have hsecondary : ∀ id ∈ o.secondary, id ∈ o.every := fun id hid => mem_every.2 (Or.inr hid)
  unfold through
  apply union_congr
  · rw [List.flatMap_append, List.flatMap_append, List.flatMap_map demote, List.flatMap_map demote]
    exact congrArg₂ _ (hlists hprimary rfl) (hlists hsecondary rfl)
  · rw [List.flatMap_append, List.flatMap_append, List.flatMap_map demote, List.flatMap_map demote]
    exact congrArg₂ _ (hlists hprimary rfl) (hlists hsecondary rfl)

/-- Owners may be left out above or below, if nothing is left below those that are left out. -/
theorem filter_through (h : ∀ id ∈ o.every, keep id = false → (under id).filter keep = ⟨[], []⟩) :
    (o.through under).filter keep =
      (o.filter keep).through fun id => (under id).filter keep := by
  rw [through_filter h]
  unfold through
  rw [filter_union, List.map_append, List.map_map, List.map_map, List.map_map, List.map_map]
  refine congrArg (fun below => union (_ ++ below)) (List.map_congr_left fun id _ => ?_)
  exact filter_demote (under id)

end Owners

end ReplicaRing
