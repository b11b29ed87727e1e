import ReplicaRing.Proofs.Results
import ReplicaRing.Proofs.Trees.Lookup
import ReplicaRing.Tree.Snapshot

/-!
# Snapshots are read back

A snapshot describes a tree (`Snapshot.Describes`) if it lists the rings of the tree in whatever
order, with whatever bits stand for their tolerances, and says what the tree says in everything
else. Whatever the format, such a snapshot is read as the tree that it describes, with these bits,
and no proper beginning of it is read as a tree (`Snapshot.describes_and_restores`).
-/

namespace ReplicaRing

namespace Snapshot

/-- Whether a snapshot is one of a tree. -/
structure Describes (s : Snapshot) (t : Tree) : Prop where
  root : s.root = t.topology.root
  parent : s.parent = t.parent
  rings : ∃ rings : List (NodeId × Ring), rings.Perm t.rings.toList ∧
    s.parts = rings.map fun (id, ring) => (id, ring.parts)
  version : s.version = t.version
  created : s.created = t.created
  region : s.region = t.region

/-- The bits of a tolerance stand for it. -/
theorem parts_record (r : Ring) : r.record.parts = r.parts := by
  rw [RingRecord.parts, Ring.record, Binary64.ofBits_toBits, Ring.parts]

theorem describes_snapshot (t : Tree) : t.snapshot.Describes t where
  root := rfl
  parent := rfl
  rings := by
    refine ⟨t.rings.toList, .refl _, ?_⟩
    rw [parts, Tree.snapshot, List.map_map]
    apply List.map_congr_left
    intro pair _
    simp [parts_record]
  version := rfl
  created := rfl
  region := rfl

/-- Rings pass the check on reading, because they passed it when they were built. -/
theorem mapM_ring?_parts (rings : List (NodeId × Ring)) :
    (rings.map fun (id, ring) => (id, ring.parts)).mapM ring? = some rings := by
  apply mapM_map_eq_some
  intro pair _
  simp [ring?, Ring.ofParts?_parts]

theorem Describes.tree? {s : Snapshot} {t : Tree} (h : s.Describes t) : s.tree? = some t := by
  obtain ⟨rings, hperm, hrings⟩ := h.rings
  -- No node has two rings, so the order in which they are entered again does not matter.
  have hmap : Std.ExtTreeMap.ofList rings = t.rings := by
    rw [ofList_eq_of_perm hperm (nodup_keys_toList t.rings), ofList_toList]
  rw [Snapshot.tree?, h.root, t.topology.ofNode?_root, hrings, mapM_ring?_parts]
  simp [Except.toOption, hmap, h.parent, h.version, h.created, h.region]

end Snapshot

namespace Format

variable (f : Format)

theorem readTree_write {s : Snapshot} {t : Tree} (h : s.Describes t) :
    f.readTree (f.snapshot.write s) = .ok t := by
  rw [readTree, f.snapshot.read_write_self, Option.bind_some]
  dsimp only
  rw [h.tree?]

theorem readTree_of_read_eq_none {bytes : List UInt8} (h : f.snapshot.read bytes = none) :
    f.readTree bytes = .error (.parse "ring tree snapshot" .malformed) := by
  rw [readTree, h]
  rfl

end Format

/-- What is written for a tree is read as the same tree again. -/
theorem Tree.ofBytes_toBytes (t : Tree) : ofBytes t.toBytes = .ok t :=
  Format.fixed.readTree_write (Snapshot.describes_snapshot t)

/-- Whatever the format, snapshots lose nothing. Every tree has a snapshot. In whatever order a
snapshot lists the rings of a tree and with whatever bits their tolerances, from what is written for
it the same snapshot is read, and from this the same tree: the topology with its index and all its
rings are there again. But a proper beginning of what is written is refused, wherever it ends, because it
is not the snapshot of anything. -/
theorem Snapshot.describes_and_restores (f : Format) (t : Tree) :
    t.snapshot.Describes t ∧ ∀ s : Snapshot, s.Describes t →
      f.snapshot.read (f.snapshot.write s) = some (s, []) ∧
      f.readTree (f.snapshot.write s) = .ok t ∧
      ∀ front back, front ++ back = f.snapshot.write s → back ≠ [] →
        f.snapshot.read front = none ∧
        f.readTree front = .error (.parse "ring tree snapshot" .malformed) := by
  refine ⟨describes_snapshot t, fun s hs => ⟨f.snapshot.read_write_self s, f.readTree_write hs, ?_⟩⟩
  intro front back hcut hback
  have hread : f.snapshot.read front = none := f.snapshot.read_eq_none_of_prefix hcut hback
  exact ⟨hread, f.readTree_of_read_eq_none hread⟩

/-- The tree of the two racks with its rings listed the other way round. -/
def twoRacksSnapshot : Snapshot :=
  { Tree.twoRacksTree.snapshot with rings := Tree.twoRacksTree.snapshot.rings.reverse }

theorem Snapshot.describes_and_restores_twoRacks :
    Format.fixed.readTree (Format.fixed.snapshot.write twoRacksSnapshot) = .ok Tree.twoRacksTree ∧
    Format.fixed.readTree (Format.fixed.snapshot.write twoRacksSnapshot).dropLast =
      .error (.parse "ring tree snapshot" .malformed) := by
  have hrings := describes_snapshot Tree.twoRacksTree
  have hdescribes : twoRacksSnapshot.Describes Tree.twoRacksTree := by
    refine { hrings with rings := ?_ }
    obtain ⟨rings, hperm, heq⟩ := hrings.rings
    refine ⟨rings.reverse, (List.reverse_perm _).trans hperm, ?_⟩
    rw [List.map_reverse, ← heq, parts, twoRacksSnapshot, List.map_reverse, parts]
  obtain ⟨-, hwhole, hcut⟩ :=
    (describes_and_restores Format.fixed Tree.twoRacksTree).2 twoRacksSnapshot hdescribes
  have hbytes : Format.fixed.snapshot.write twoRacksSnapshot ≠ [] :=
    Format.fixed.snapshot.write_ne_nil (b := { twoRacksSnapshot with version := 2 }) (by
      intro heq
      exact absurd (congrArg Snapshot.version heq) (by decide))
  exact ⟨hwhole, (hcut _ _ (List.dropLast_append_getLast hbytes) (List.cons_ne_nil _ _)).2⟩

end ReplicaRing
