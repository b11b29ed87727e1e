import ReplicaRing.ReplicaMap.Changes
import ReplicaRing.Ring
import ReplicaRing.Topology

/-!
# Trees of rings

A tree holds the rings of one build, one for each node that was expanded. A coordinate is routed
from the ring of the parent down to servers; `flatten` does the same for all coordinates at once and
gives a replica map. What a secondary child holds is a secondary copy, whatever it is below that
child.

The rings of a tree may refer to any node, so going down need not end: as many steps as the topology
has nodes are enough unless a node comes up below itself.
-/

namespace ReplicaRing

/-- The rings of one build. -/
structure Tree where
  topology : Topology
  /-- The node whose ring stands above all others. -/
  parent : NodeId
  /-- The rings by the nodes whose children own their regions. -/
  rings : Std.ExtTreeMap NodeId Ring
  version : UInt64
  /-- When the tree was made, in milliseconds. -/
  created : UInt64
  region : Region
deriving DecidableEq

namespace Tree

/-- The rings of a list by their nodes; of several for one node the last holds. -/
def indexRings (rings : List Ring) : Std.ExtTreeMap NodeId Ring :=
  .ofList (rings.map fun ring => (ring.node, ring))

def ring? (t : Tree) (id : NodeId) : Option Ring :=
  t.rings[id]?

def nodes (t : Tree) : List NodeId :=
  t.rings.keys

def size (t : Tree) : Nat :=
  t.rings.size

/-- The ring of a node that owns regions. -/
def ringOf (t : Tree) (id : NodeId) : Except Error Ring :=
  match t.ring? id with
  | some ring => .ok ring
  | none => .error (.invalidRing (.noRing id))

/-- The number of steps down that no chain of different nodes exceeds. -/
def depthLimit (t : Tree) : Nat :=
  t.topology.size + 1

/-! ### Routing one coordinate -/

/-- The servers below a node that own a coordinate, at most `depth` steps down. -/
def ownersUnder (t : Tree) (c : Nat) : Nat → NodeId → Except Error Owners
  | 0, id => .error (.invalidRing (.ownsItself id))
  | depth + 1, id => do
    if (← t.topology.node id).isServer then
      return ⟨[id], []⟩
    let ring ← t.ringOf id
    match ring.entryAt? c with
    | none => .error (.invalidRing (.notCovered id c))
    | some e =>
      let primaries ← e.owners.primary.mapM (t.ownersUnder c depth)
      let secondaries ← e.owners.secondary.mapM (t.ownersUnder c depth)
      -- The primary owners of a secondary child are secondary owners here.
      return Owners.union (primaries ++ secondaries.map Owners.demote)

def ownersAt (t : Tree) (c : Nat) (mode : QueryMode) : Except Error (List NodeId) :=
  (t.ownersUnder c t.depthLimit t.parent).map fun owners => owners.inMode mode

/-! ### Routing every coordinate -/

/-- The entry as a secondary copy. -/
def demoteEntry (e : Entry) : Entry :=
  ⟨e.region, e.owners.demote⟩

/-- The entries of the servers below a node for a region, at most `depth` steps down. -/
def entriesUnder (t : Tree) : Nat → NodeId → Region → Except Error (List Entry)
  | 0, id, _ => .error (.invalidRing (.ownsItself id))
  | depth + 1, id, region => do
    if (← t.topology.node id).isServer then
      return [⟨region, [id], []⟩]
    let ring ← t.ringOf id
    let pieces ← (ring.overlapping region).mapM fun e =>
      match e.region.inter? region with
      | none => return []
      | some piece => do
        let primaries ← e.owners.primary.mapM (t.entriesUnder depth · piece)
        let secondaries ← e.owners.secondary.mapM (t.entriesUnder depth · piece)
        return superpose piece (primaries ++ secondaries.map (·.map demoteEntry))
    return pieces.flatten

/-- The servers that own each coordinate below a node. -/
def flatten (t : Tree) (parent : NodeId) : Except Error ReplicaMap := do
  let entries ← t.entriesUnder t.depthLimit parent t.region
  (ReplicaMap.ofEntries? t.region entries).mapError .invalidRing

/-- The regions whose servers differ between two trees. -/
def changes (old new : Tree) : Except Error (List Change) := do
  let before ← old.flatten old.parent
  let after ← new.flatten new.parent
  (before.changes? after).mapError .invalidRing

/-! ### Exclusions -/

/-- The tree with excluded nodes struck from every ring, made at another time. -/
def without? (t : Tree) (exclusions : Exclusions) (created : UInt64) :
    Except RingDefect Tree := do
  let rings ← t.rings.toList.mapM fun (id, ring) => do
    let stripped ← ring.without? exclusions
    return (id, stripped)
  return { t with rings := .ofList rings, created }

/-- Refuses exclusions that leave some coordinate below a node without a primary server. -/
def checkFeasible (t : Tree) (parent : NodeId) (exclusions : Exclusions) :
    Except Error Unit := do
  (← t.flatten parent).checkFeasible exclusions

/-! ### Text -/

/-- The tree as text, with a given text for the time. -/
def textAt (t : Tree) (created : String) : String :=
  "RingTree parent=" ++ t.parent ++ " version=" ++ toString t.version.toNat ++ " created=" ++
    created ++ " rings=" ++ toString t.size ++ "\n" ++
    String.join (t.rings.values.map Ring.text)

/-- The tree as text: a line for the tree, then its rings sorted by their nodes. -/
def text (t : Tree) : String :=
  t.textAt (toString t.created.toNat)

end Tree

end ReplicaRing
