import ReplicaRing.Maps
import ReplicaRing.Ring.Parts
import ReplicaRing.Topology.Binary
import ReplicaRing.Tree

/-!
# Snapshots

A tree of rings is handed to another participant as bytes. A `Snapshot` is a tree as the bytes
carry it: the topology as its root alone, the rings as a list, the tolerances as bits. `Format`
writes it field by field.

What is read is checked as if it had been built: a topology with two nodes of one name, a region
that ends before it starts and a ring whose entries are not in their canonical form are all
malformed. Only the check of the topology belongs to the format. For regions and rings the model is
stricter than the bytes: a participant that checks only the topology takes such a region or ring as
it stands. The two agree on everything that `Tree.toBytes` writes.
-/

namespace ReplicaRing

/-! ### Records -/

/-- A ring as bytes carry it. -/
structure RingRecord where
  node : NodeId
  policy : String
  region : Region
  primaryReplicas : Nat
  secondaryReplicas : Nat
  /-- The bits of the tolerance. -/
  tolerance : UInt64
  entries : List Entry

/-- What a record says about a ring. -/
def RingRecord.parts (r : RingRecord) : Ring.Parts :=
  ⟨r.node, r.policy, r.region, r.primaryReplicas, r.secondaryReplicas,
    Binary64.ofBits r.tolerance, r.entries⟩

def Ring.record (r : Ring) : RingRecord :=
  ⟨r.node, r.policy, r.region, r.primaryReplicas, r.secondaryReplicas, r.tolerance.toBits,
    r.entries.toList⟩

/-- A tree as bytes carry it. -/
structure Snapshot where
  root : Node
  parent : NodeId
  /-- The rings with their nodes. Of several for one node the last holds. -/
  rings : List (NodeId × RingRecord)
  version : UInt64
  created : UInt64
  region : Region

namespace Snapshot

/-- A ring with its node, if its parts are in their canonical form; the bytes alone do not ask for
that. -/
def ring? : NodeId × Ring.Parts → Option (NodeId × Ring)
  | (id, parts) => (Ring.ofParts? parts).map fun ring => (id, ring)

/-- What the records of a snapshot say about the rings. -/
def parts (s : Snapshot) : List (NodeId × Ring.Parts) :=
  s.rings.map fun (id, record) => (id, record.parts)

/-- The tree that a snapshot describes. -/
def tree? (s : Snapshot) : Option Tree := do
  let topology ← (Topology.ofNode? s.root).toOption
  let rings ← s.parts.mapM ring?
  return ⟨topology, s.parent, .ofList rings, s.version, s.created, s.region⟩

end Snapshot

/-- The snapshot of a tree with its rings sorted by their nodes. -/
def Tree.snapshot (t : Tree) : Snapshot :=
  ⟨t.topology.root, t.parent, t.rings.toList.map fun (id, ring) => (id, ring.record), t.version,
    t.created, t.region⟩

/-! ### Bytes -/

namespace Format

variable (f : Format)

/-- Regions, by their ends. Two words that are not in order are refused, although bytes could carry
them. -/
def region : Codec Region :=
  (f.word.pair f.word).recast (fun r => (UInt64.ofNat r.first, UInt64.ofNat r.last))
    (fun (first, last) => Region.ofBounds? first.toNat last.toNat)
    (fun r => by
      have hfirst : r.first < spaceSize := Nat.lt_of_le_of_lt r.first_le_last r.last_lt
      dsimp only
      rw [UInt64.toNat_ofNat_of_lt' hfirst, UInt64.toNat_ofNat_of_lt' r.last_lt]
      exact dif_pos ⟨r.first_le_last, r.last_lt⟩)

/-- Entries: the region, the primary owners and the secondary owners. -/
def entry : Codec Entry :=
  (f.region.pair <| (Codec.list f.count f.string).pair (Codec.list f.count f.string)).recast
    (fun e => (e.region, e.owners.primary, e.owners.secondary))
    (fun (r, primary, secondary) => some ⟨r, primary, secondary⟩)
    (fun _ => rfl)

def ring : Codec RingRecord :=
  (f.string.pair <| f.string.pair <| f.region.pair <| f.count.pair <| f.count.pair <|
    f.word.pair <| Codec.list f.count f.entry).recast
    (fun r => (r.node, r.policy, r.region, r.primaryReplicas, r.secondaryReplicas, r.tolerance,
      r.entries))
    (fun (node, policy, region, primaryReplicas, secondaryReplicas, tolerance, entries) =>
      some ⟨node, policy, region, primaryReplicas, secondaryReplicas, tolerance, entries⟩)
    (fun _ => rfl)

def snapshot : Codec Snapshot :=
  (f.node.pair <| f.string.pair <| (Codec.list f.count (f.string.pair f.ring)).pair <|
    f.word.pair <| f.word.pair f.region).recast
    (fun s => (s.root, s.parent, s.rings, s.version, s.created, s.region))
    (fun (root, parent, rings, version, created, region) =>
      some ⟨root, parent, rings, version, created, region⟩)
    (fun _ => rfl)

/-- The tree at the front of some bytes. -/
def readTree (bytes : List UInt8) : Except Error Tree :=
  match (f.snapshot.read bytes).bind fun (s, _) => s.tree? with
  | some t => .ok t
  | none => .error (.parse "ring tree snapshot" .malformed)

end Format

namespace Tree

def toBytes (t : Tree) : List UInt8 :=
  Format.fixed.snapshot.write t.snapshot

def ofBytes (bytes : List UInt8) : Except Error Tree :=
  Format.fixed.readTree bytes

end Tree

end ReplicaRing
