import ReplicaRing.Owners
import ReplicaRing.Text.Blank
import ReplicaRing.Text.Lines
import Std.Data.ExtTreeSet

/-!
# Excluded nodes

A set of node ids that must not own any region. An excluded node that is no server cuts off
everything below it; the set itself only knows the ids.
-/

namespace ReplicaRing

/-- The ids of nodes that must not own any region. -/
structure Exclusions where
  ids : Std.ExtTreeSet NodeId
deriving DecidableEq

namespace Exclusions

def empty : Exclusions :=
  ⟨∅⟩

def ofList (ids : List NodeId) : Exclusions :=
  ⟨.ofList ids⟩

def toList (e : Exclusions) : List NodeId :=
  e.ids.toList

def excludes (e : Exclusions) (id : NodeId) : Bool :=
  e.ids.contains id

def insert (e : Exclusions) (id : NodeId) : Exclusions :=
  ⟨e.ids.insert id⟩

def erase (e : Exclusions) (id : NodeId) : Exclusions :=
  ⟨e.ids.erase id⟩

def union (e f : Exclusions) : Exclusions :=
  ⟨e.ids.union f.ids⟩

/-- The ids that are not excluded, in their order. -/
def filter (e : Exclusions) (ids : List NodeId) : List NodeId :=
  ids.filter fun id => !e.excludes id

/-- The owners that are not excluded, in their order. -/
def filterOwners (e : Exclusions) (o : Owners) : Owners :=
  o.filter fun id => !e.excludes id

/-- Reads one id from each line; `#` starts a comment, and blanks around an id do not count. -/
def ofLines (text : List Char) : Exclusions :=
  ofList (((Text.lines text).map fun line => Text.trim (Text.beforeComment line)).filterMap
    fun id => if id.isEmpty then none else some (String.ofList id))

end Exclusions

end ReplicaRing
