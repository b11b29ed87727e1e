import ReplicaRing.Region
import ReplicaRing.Sorting

/-!
# Runs of one value

A function on the coordinates of a region that changes its value only now and then is kept as a list
of runs: regions, in order and without gaps, each with the one value found throughout it. Which
owners a ring assigns and which coordinates change hands are both of this kind. `canonical` puts a
list of runs in order and joins neighbours of equal value; a list that tiles its region and has no
such neighbours left is determined by the function alone.
-/

namespace ReplicaRing

/-- A region with one value throughout. -/
structure Run (α : Type) where
  region : Region
  value : α
deriving DecidableEq

namespace Run

variable {α : Type} [DecidableEq α]

/-- Two runs are one when they meet and have the same value. -/
def Joins (a b : Run α) : Prop :=
  a.value = b.value ∧ a.region.Meets b.region

instance (a b : Run α) : Decidable (a.Joins b) :=
  inferInstanceAs (Decidable (_ ∧ _))

/-- Joins the runs after `run` to it as long as they join, then goes on with the next run. -/
def mergeFrom (run : Run α) : List (Run α) → List (Run α)
  | [] => [run]
  | next :: rest =>
    if h : run.Joins next then mergeFrom ⟨run.region.join next.region h.2, run.value⟩ rest
    else run :: mergeFrom next rest

/-- Joins neighbours of equal value that meet. -/
def merge : List (Run α) → List (Run α)
  | [] => []
  | run :: rest => mergeFrom run rest

/-- The runs in the order of their regions, with neighbours joined that are one. -/
def canonical (runs : List (Run α)) : List (Run α) :=
  merge (sortBy (fun a b => a.region.precedes b.region) runs)

/-- The runs follow one another without a gap or an overlap, from the coordinate `next` up to the
coordinate `last`. -/
def TilesFrom (next last : Nat) : List (Run α) → Prop
  | [] => next = last + 1
  | run :: rest => run.region.first = next ∧ TilesFrom (run.region.last + 1) last rest

/-- The runs are in order and hold each coordinate of the region exactly once, and no other. -/
def Tiles (region : Region) (runs : List (Run α)) : Prop :=
  TilesFrom region.first region.last runs

/-- No two neighbours are one. -/
def Merged : List (Run α) → Prop
  | a :: b :: rest => ¬ a.Joins b ∧ Merged (b :: rest)
  | _ => True

instance instDecidableTilesFrom (next last : Nat) :
    (runs : List (Run α)) → Decidable (TilesFrom next last runs)
  | [] => inferInstanceAs (Decidable (next = last + 1))
  | run :: rest =>
    have := instDecidableTilesFrom (run.region.last + 1) last rest
    inferInstanceAs (Decidable (_ ∧ _))

instance (region : Region) (runs : List (Run α)) : Decidable (Tiles region runs) :=
  instDecidableTilesFrom _ _ runs

instance instDecidableMerged : (runs : List (Run α)) → Decidable (Merged runs)
  | [] => isTrue trivial
  | [_] => isTrue trivial
  | a :: b :: rest =>
    have := instDecidableMerged (b :: rest)
    inferInstanceAs (Decidable (¬ a.Joins b ∧ Merged (b :: rest)))

/-- The value at a coordinate: that of the first run that holds it. -/
def valueAt? (runs : List (Run α)) (c : Nat) : Option α :=
  (runs.find? fun run => c ∈ run.region).map Run.value

/-! ### What merging leaves -/

omit [DecidableEq α] in
theorem merged_cons {a b : Run α} {rest : List (Run α)} :
    Merged (a :: b :: rest) ↔ ¬ a.Joins b ∧ Merged (b :: rest) :=
  Iff.rfl

/-- The first run of a merged list starts where the list did and has its first value. -/
theorem mergeFrom_eq_cons (run : Run α) (rest : List (Run α)) :
    ∃ head tail, mergeFrom run rest = head :: tail ∧
      head.region.first = run.region.first ∧ head.value = run.value := by
  induction rest generalizing run with
  | nil => exact ⟨run, [], rfl, rfl, rfl⟩
  | cons next rest ih =>
    rw [mergeFrom]
    split
    · exact ih _
    · exact ⟨run, _, rfl, rfl, rfl⟩

/-- Merging leaves no two neighbours that are one: the run after a finished one is not joined to it,
and whether two runs join depends on the second one only through its start and its value. -/
theorem merged_mergeFrom (run : Run α) (rest : List (Run α)) : Merged (mergeFrom run rest) := by
  induction rest generalizing run with
  | nil => trivial
  | cons next rest ih =>
    rw [mergeFrom]
    split
    · exact ih _
    · rename_i h
      obtain ⟨head, tail, heq, hfirst, hvalue⟩ := mergeFrom_eq_cons next rest
      have hmerged := ih next
      rw [heq] at hmerged ⊢
      refine ⟨fun hj => h ⟨hj.1.trans hvalue, ?_⟩, hmerged⟩
      exact Eq.trans hj.2 hfirst

theorem merged_merge (runs : List (Run α)) : Merged (merge runs) := by
  cases runs with
  | nil => trivial
  | cons run rest => exact merged_mergeFrom run rest

theorem merged_canonical (runs : List (Run α)) : Merged (canonical runs) :=
  merged_merge _

end Run

end ReplicaRing
