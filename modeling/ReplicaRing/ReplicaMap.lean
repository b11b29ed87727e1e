import ReplicaRing.Entry
import ReplicaRing.Exclusions

/-!
# Replica maps

A replica map is a tree of rings seen from its servers: it lists the primary and the secondary
servers of every region. `superpose` unites the owners of several lists of entries over one region;
it cuts the region wherever one of the lists changes, so between two cuts every list is constant.
-/

namespace ReplicaRing

/-- The distinct numbers of a list, in increasing order. -/
def sortedDistinct (ns : List Nat) : List Nat :=
  (Std.ExtTreeSet.ofList ns).toList

/-- The owners of every coordinate of a region, united over several lists of entries that each cover
it. -/
def superpose (region : Region) (lists : List (List Entry)) : List Entry :=
  let starts := lists.flatMap fun entries =>
    (entries.map fun e => e.region.first).filter fun c => decide (c ∈ region)
  let arrays := lists.map List.toArray
  Run.canonical <| (cutAt region.last (sortedDistinct (region.first :: starts))).map fun piece =>
    ⟨piece, Owners.union ((arrays.filterMap (Run.findAt? · piece.first)).map Run.value)⟩

/-- The servers that own each coordinate of a region. -/
structure ReplicaMap where
  region : Region
  entries : Array Entry
  tiles : Run.Tiles region entries.toList
  merged : Run.Merged entries.toList

namespace ReplicaMap

/-- Builds a map from entries in any order. -/
def ofEntries? (region : Region) (entries : List Entry) : Except RingDefect ReplicaMap :=
  match h : Run.coverageDefect? region (Run.canonical entries) with
  | some defect => .error defect
  | none => .ok {
      region
      entries := (Run.canonical entries).toArray
      tiles := Run.coverageDefect?_eq_none.1 h
      merged := Run.merged_canonical entries }

def entryAt? (m : ReplicaMap) (c : Nat) : Option Entry :=
  Run.findAt? m.entries c

/-- The servers of a coordinate; none outside the region. -/
def ownersAt (m : ReplicaMap) (c : Nat) (mode : QueryMode) : List NodeId :=
  ((m.entryAt? c).map fun e => e.owners.inMode mode).getD []

def roleAt (m : ReplicaMap) (c : Nat) (id : NodeId) : Role :=
  ((m.entryAt? c).map fun e => e.owners.role id).getD .none

def servers (m : ReplicaMap) : List NodeId :=
  Entry.allOwners m.entries.toList

/-- The number of coordinates that a server owns in a mode. -/
def sizeOwnedBy (m : ReplicaMap) (id : NodeId) (mode : QueryMode) : Nat :=
  Entry.sizeOwnedBy m.entries.toList id mode

/-! ### Feasibility -/

/-- The first entry whose primary servers are all excluded. -/
def infeasible? (m : ReplicaMap) (exclusions : Exclusions) : Option Entry :=
  m.entries.toList.find? fun e => exclusions.filter e.owners.primary = []

/-- Refuses exclusions that leave some coordinate without a primary server. -/
def checkFeasible (m : ReplicaMap) (exclusions : Exclusions) : Except Error Unit :=
  match m.infeasible? exclusions with
  | some e => .error (.infeasible e.region e.owners.primary)
  | none => .ok ()

/-- Whether every coordinate keeps a primary server. -/
def isFeasible (m : ReplicaMap) (exclusions : Exclusions) : Bool :=
  (m.infeasible? exclusions).isNone

end ReplicaMap

end ReplicaRing
