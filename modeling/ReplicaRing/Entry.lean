import ReplicaRing.Error
import ReplicaRing.Run
import ReplicaRing.Search
import ReplicaRing.Sum
import Std.Data.ExtTreeSet

/-!
# Entries and how they cover a region

An entry is a region with its owners. A list of entries covers a region when they follow one another
without a gap or an overlap from its first coordinate to its last one. `coverageDefect?` names the
first place where they do not, and finds nothing exactly when they do (`coverageDefect?_eq_none`).
In an array of entries that are in order, the one that holds a coordinate is found by binary search.
-/

namespace ReplicaRing

abbrev Entry := Run Owners

/-- The owners of the coordinates of an entry. -/
abbrev Run.owners (e : Entry) : Owners :=
  e.value

def Run.entryText (e : Entry) : String :=
  e.region.text ++ " " ++ e.owners.text

namespace Run

variable {α : Type}

/-! ### Coverage -/

/-- The first place after `run` where the runs stop to follow one another or miss the end of the
region. -/
def continuationDefect? (region : Region) (run : Run α) : List (Run α) → Option RingDefect
  | [] => if run.region.last = region.last then none else some (.endsElsewhere run.region region)
  | next :: rest =>
    if run.region.Meets next.region then continuationDefect? region next rest
    else some (.notContiguous run.region next.region)

/-- The first reason why the runs do not cover the region. -/
def coverageDefect? (region : Region) : List (Run α) → Option RingDefect
  | [] => some .noEntries
  | run :: rest =>
    if run.region.first = region.first then continuationDefect? region run rest
    else some (.startsElsewhere run.region region)

theorem continuationDefect?_eq_none {region : Region} {run : Run α} {rest : List (Run α)} :
    continuationDefect? region run rest = none ↔
      TilesFrom (run.region.last + 1) region.last rest := by
  induction rest generalizing run with
  | nil => simp [continuationDefect?, TilesFrom]
  | cons next rest ih =>
    rw [continuationDefect?, TilesFrom]
    split
    · rename_i h
      rw [ih]
      exact ⟨fun ht => ⟨Eq.symm h, ht⟩, fun ht => ht.2⟩
    · rename_i h
      exact ⟨fun ht => (nomatch ht), fun ht => absurd (Eq.symm ht.1) h⟩

/-- No defect is found exactly when the runs tile the region. -/
theorem coverageDefect?_eq_none {region : Region} {runs : List (Run α)} :
    coverageDefect? region runs = none ↔ Tiles region runs := by
  cases runs with
  | nil =>
    have := region.first_le_last
    simp only [coverageDefect?, Tiles, TilesFrom]
    exact ⟨fun h => (nomatch h), fun h => by omega⟩
  | cons run rest =>
    rw [coverageDefect?, Tiles, TilesFrom]
    split
    · rename_i h
      rw [continuationDefect?_eq_none]
      exact ⟨fun ht => ⟨h, ht⟩, fun ht => ht.2⟩
    · rename_i h
      exact ⟨fun ht => (nomatch ht), fun ht => absurd ht.1 h⟩

/-! ### Looking coordinates up -/

def findAt? (runs : Array (Run α)) (c : Nat) : Option (Run α) :=
  (runs[firstFailing (fun run => decide (run.region.last < c)) runs]?).filter
    fun run => decide (c ∈ run.region)

/-- The runs that share a coordinate with a window, in order. -/
def overlapping (runs : Array (Run α)) (window : Region) : List (Run α) :=
  let start := firstFailing (fun run => decide (run.region.last < window.first)) runs
  (runs.toList.drop start).takeWhile fun run => decide (run.region.first ≤ window.last)

end Run

/-! ### What an owner holds -/

namespace Entry

/-- The entries that list a node in a mode. -/
def ownedBy (entries : List Entry) (id : NodeId) (mode : QueryMode) : List Entry :=
  entries.filter fun e => (e.owners.inMode mode).contains id

/-- The number of coordinates that list a node in a mode. -/
def sizeOwnedBy (entries : List Entry) (id : NodeId) (mode : QueryMode) : Nat :=
  sumOf ((ownedBy entries id mode).map fun e => e.region.size)

/-- Every node that an entry lists, sorted. -/
def allOwners (entries : List Entry) : List NodeId :=
  (Std.ExtTreeSet.ofList (entries.flatMap fun e => e.owners.every)).toList

end Entry

end ReplicaRing
