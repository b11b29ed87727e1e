import ReplicaRing.Text.Hex

/-!
# Regions of the identifier space

The identifier space holds the coordinates `0, …, 2 ^ 64 - 1`. A `Region` is a non-empty run of
coordinates given by its first and its last one, so the whole space is a region and no end ever has
to be written as `2 ^ 64`. Coordinates are natural numbers here; that a region lies in the space is
part of its type.
-/

namespace ReplicaRing

/-- The number of coordinates of the identifier space. -/
abbrev spaceSize : Nat :=
  UInt64.size

/-- A non-empty run of coordinates, both ends included. -/
structure Region where
  first : Nat
  last : Nat
  first_le_last : first ≤ last
  last_lt : last < spaceSize
deriving DecidableEq

namespace Region

/-- The region between two natural numbers, if they are in order and in the space. -/
def ofBounds? (first last : Nat) : Option Region :=
  if h : first ≤ last ∧ last < spaceSize then some ⟨first, last, h.1, h.2⟩ else none

def whole : Region where
  first := 0
  last := spaceSize - 1
  first_le_last := by decide
  last_lt := by decide

def point (c : UInt64) : Region where
  first := c.toNat
  last := c.toNat
  first_le_last := Nat.le_refl _
  last_lt := c.toNat_lt

def size (r : Region) : Nat :=
  r.last - r.first + 1

theorem size_pos (r : Region) : 0 < r.size :=
  Nat.succ_pos _

instance : Membership Nat Region where
  mem r c := r.first ≤ c ∧ c ≤ r.last

theorem mem_iff {r : Region} {c : Nat} : c ∈ r ↔ r.first ≤ c ∧ c ≤ r.last :=
  Iff.rfl

instance (r : Region) (c : Nat) : Decidable (c ∈ r) :=
  inferInstanceAs (Decidable (_ ∧ _))

/-- Two regions overlap when they share a coordinate. -/
def Overlaps (a b : Region) : Prop :=
  a.first ≤ b.last ∧ b.first ≤ a.last

instance (a b : Region) : Decidable (a.Overlaps b) :=
  inferInstanceAs (Decidable (_ ∧ _))

/-- A region encloses another when it holds all of its coordinates. -/
def Encloses (a b : Region) : Prop :=
  a.first ≤ b.first ∧ b.last ≤ a.last

instance (a b : Region) : Decidable (a.Encloses b) :=
  inferInstanceAs (Decidable (_ ∧ _))

/-- The coordinates that two regions share, if there are any. -/
def inter? (a b : Region) : Option Region :=
  ofBounds? (max a.first b.first) (min a.last b.last)

/-- One region meets the next when no coordinate lies between them. -/
def Meets (a b : Region) : Prop :=
  a.last + 1 = b.first

instance (a b : Region) : Decidable (a.Meets b) :=
  inferInstanceAs (Decidable (_ = _))

/-- The region made of two that meet. -/
def join (a b : Region) (h : a.Meets b) : Region where
  first := a.first
  last := b.last
  first_le_last := by
    have ha := a.first_le_last
    have hb := b.first_le_last
    unfold Meets at h
    omega
  last_lt := b.last_lt

/-- Regions are ordered by their first coordinate, then by their last one. -/
def compare (a b : Region) : Ordering :=
  (Ord.compare a.first b.first).then (Ord.compare a.last b.last)

/-- The order of regions as a test. -/
def precedes (a b : Region) : Bool :=
  (a.compare b).isLE

/-- The part of a region from offset `start` up to, but not including, offset `stop`. -/
def slice? (r : Region) (start stop : Nat) : Option Region :=
  if start < stop ∧ stop ≤ r.size then ofBounds? (r.first + start) (r.first + stop - 1) else none

/-- The two ends in hexadecimal, between square brackets. -/
def text (r : Region) : String :=
  "[" ++ Text.hex 16 r.first ++ ", " ++ Text.hex 16 r.last ++ "]"

end Region

/-- Cuts the coordinates from the first of `starts` up to `last` at every one of `starts`, which
come in increasing order: a piece ends right before the next one starts. -/
def cutAt (last : Nat) : List Nat → List Region
  | [] => []
  | [start] => (Region.ofBounds? start last).toList
  | start :: next :: rest =>
    (Region.ofBounds? start (next - 1)).toList ++ cutAt last (next :: rest)

end ReplicaRing
