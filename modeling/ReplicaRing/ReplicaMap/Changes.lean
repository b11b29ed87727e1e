import ReplicaRing.ReplicaMap

/-!
# Changes of ownership

What a convergence has to carry out is the difference of two replica maps over one region: the
regions whose lists of owners differ, with the lists before and after. Neighbours with the same
change are one change.
-/

namespace ReplicaRing

/-- The owners of a region before and after. -/
structure Handover where
  before : Owners
  after : Owners
deriving DecidableEq

/-- A region and how its owners change. -/
abbrev Change := Run Handover

namespace Handover

/-- The nodes of one list that are not in another, sorted. -/
def missingFrom (other ids : List NodeId) : List NodeId :=
  (Std.ExtTreeSet.ofList (ids.filter fun id => !other.contains id)).toList

/-- The servers that own the region only afterwards, sorted: they have to receive its data. -/
def gains (h : Handover) : List NodeId :=
  missingFrom h.before.every h.after.every

/-- The servers that own the region only before, sorted. -/
def losses (h : Handover) : List NodeId :=
  missingFrom h.after.every h.before.every

end Handover

namespace ReplicaMap

/-- The change within a piece on which both maps are constant, if there is one. -/
def changeWithin? (before after : ReplicaMap) (piece : Region) : Option Change :=
  match before.entryAt? piece.first, after.entryAt? piece.first with
  | some old, some new =>
    if old.owners = new.owners then none else some ⟨piece, old.owners, new.owners⟩
  | _, _ => none

/-- The regions whose owners differ between two maps over the same region. -/
def changes? (before after : ReplicaMap) : Except RingDefect (List Change) :=
  if before.region = after.region then
    let starts := (before.entries.toList ++ after.entries.toList).map fun e => e.region.first
    let pieces := cutAt before.region.last (sortedDistinct starts)
    .ok (Run.merge (pieces.filterMap (before.changeWithin? after)))
  else .error (.differentRegions before.region after.region)

end ReplicaMap

end ReplicaRing
