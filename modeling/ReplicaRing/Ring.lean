import ReplicaRing.Entry
import ReplicaRing.Exclusions

/-!
# Rings

The ring of a node assigns every coordinate of a region to children of that node. A value of the
type `Ring` is correct by construction: its entries tile the region, neighbours with the same owners
are one entry, and each entry has at least one primary owner and none twice. `Ring.ofEntries?`
builds a ring from entries in any order, or names the first thing that is wrong with them.
-/

namespace ReplicaRing

/-- What every list of primary owners has to satisfy. -/
def Entry.HasPrimaries (e : Entry) : Prop :=
  e.owners.primary ≠ [] ∧ e.owners.primary.Nodup

instance (e : Entry) : Decidable e.HasPrimaries :=
  inferInstanceAs (Decidable (_ ∧ _))

/-- The regions of one node's identifier space and the children that own them. -/
structure Ring where
  /-- The node whose children own the regions. -/
  node : NodeId
  /-- The storage policy that the ring was built with. -/
  policy : String
  region : Region
  /-- The number of primary owners of each region, as far as there are enough children. -/
  primaryReplicas : Nat
  /-- The number of secondary owners of each region, as far as there are enough children. -/
  secondaryReplicas : Nat
  /-- The tolerance that sufficed to build the ring. -/
  tolerance : Float
  entries : Array Entry
  tiles : Run.Tiles region entries.toList
  merged : Run.Merged entries.toList
  hasPrimaries : ∀ e ∈ entries.toList, e.HasPrimaries
deriving DecidableEq

namespace Ring

/-- The first entry whose primary owners are missing or repeated. -/
def primariesDefect? : List Entry → Option RingDefect
  | [] => none
  | e :: rest =>
    if e.owners.primary = [] then some (.noPrimaryOwner e.region)
    else if e.owners.primary.Nodup then primariesDefect? rest
    else some (.repeatedPrimaryOwner e.region)

theorem primariesDefect?_eq_none {entries : List Entry} :
    primariesDefect? entries = none ↔ ∀ e ∈ entries, e.HasPrimaries := by
  induction entries with
  | nil => simp [primariesDefect?]
  | cons e rest ih =>
    rw [primariesDefect?]
    split
    · simp [Entry.HasPrimaries, *]
    · split
      · simp [Entry.HasPrimaries, *]
      · simp [Entry.HasPrimaries, *]

/-- The first reason why entries in canonical form are no ring of a region. -/
def defect? (region : Region) (entries : List Entry) : Option RingDefect :=
  (Run.coverageDefect? region entries).orElse fun _ => primariesDefect? entries

theorem defect?_eq_none {region : Region} {entries : List Entry} :
    defect? region entries = none ↔
      Run.Tiles region entries ∧ ∀ e ∈ entries, e.HasPrimaries := by
  rw [defect?, ← Run.coverageDefect?_eq_none, ← primariesDefect?_eq_none]
  cases Run.coverageDefect? region entries <;> simp

/-- Builds a ring from entries in any order. -/
def ofEntries? (node : NodeId) (policy : String) (region : Region)
    (primaryReplicas secondaryReplicas : Nat) (tolerance : Float) (entries : List Entry) :
    Except RingDefect Ring :=
  match h : defect? region (Run.canonical entries) with
  | some defect => .error defect
  | none => .ok {
      node, policy, region, primaryReplicas, secondaryReplicas, tolerance
      entries := (Run.canonical entries).toArray
      tiles := (defect?_eq_none.1 h).1
      merged := Run.merged_canonical entries
      hasPrimaries := (defect?_eq_none.1 h).2 }

def withEntries? (r : Ring) (entries : List Entry) : Except RingDefect Ring :=
  ofEntries? r.node r.policy r.region r.primaryReplicas r.secondaryReplicas r.tolerance entries

def entryAt? (r : Ring) (c : Nat) : Option Entry :=
  Run.findAt? r.entries c

/-- The owners of a coordinate; none outside the region. -/
def ownersAt (r : Ring) (c : Nat) (mode : QueryMode) : List NodeId :=
  ((r.entryAt? c).map fun e => e.owners.inMode mode).getD []

/-- The entries that share a coordinate with a window, in order. -/
def overlapping (r : Ring) (window : Region) : List Entry :=
  Run.overlapping r.entries window

def members (r : Ring) : List NodeId :=
  Entry.allOwners r.entries.toList

/-- The number of coordinates that a child owns in a mode. -/
def sizeOwnedBy (r : Ring) (id : NodeId) (mode : QueryMode) : Nat :=
  Entry.sizeOwnedBy r.entries.toList id mode

/-- The number of entries that list a child in a mode. -/
def entriesOwned (r : Ring) (id : NodeId) (mode : QueryMode) : Nat :=
  (Entry.ownedBy r.entries.toList id mode).length

/-- The part of all primary replicas that a child holds. -/
def primaryFraction (r : Ring) (id : NodeId) : Float :=
  let capacity := Binary64.ofNat r.region.size * Binary64.ofNat (max r.primaryReplicas 1)
  Binary64.ofNat (r.sizeOwnedBy id .primary) / capacity

/-- The entries of a ring without excluded owners; an entry that would lose its last primary owner
is refused. -/
def strikeFrom (node : NodeId) (exclusions : Exclusions) :
    List Entry → Except RingDefect (List Entry)
  | [] => .ok []
  | e :: rest =>
    if exclusions.filter e.owners.primary = [] then
      .error (.allPrimariesExcluded node e.owners.primary e.region)
    else (strikeFrom node exclusions rest).map (⟨e.region, exclusions.filterOwners e.owners⟩ :: ·)

/-- The ring with excluded nodes struck from every list of owners. -/
def without? (r : Ring) (exclusions : Exclusions) : Except RingDefect Ring :=
  (strikeFrom r.node exclusions r.entries.toList).bind r.withEntries?

/-- The ring as text: a line for the ring and one for each entry. -/
def text (r : Ring) : String :=
  "ring " ++ r.node ++ " policy=" ++ r.policy ++ " primary=" ++ toString r.primaryReplicas ++
    " secondary=" ++ toString r.secondaryReplicas ++ " tolerance=" ++
    Decimal.withExponent r.tolerance ++ "\n" ++
    String.join (r.entries.toList.map fun e => "  " ++ e.entryText ++ "\n")

end Ring

end ReplicaRing
