import ReplicaRing.Text.Quoted

/-!
# Owners

A coordinate has an ordered list of primary owners and an ordered list of secondary owners. The
owners of a node are its children at one level of the topology and servers once all levels are
resolved; both are named by node ids.
-/

namespace ReplicaRing

/-- The name of a node of the topology. -/
abbrev NodeId := String

/-- Which of the two lists of owners a query asks for. -/
inductive QueryMode
  | primary
  | secondary
  | all
deriving DecidableEq

namespace QueryMode

def wantsPrimary : QueryMode → Bool
  | primary | all => true
  | secondary => false

def wantsSecondary : QueryMode → Bool
  | secondary | all => true
  | primary => false

/-- The name of a mode in messages. -/
def text : QueryMode → String
  | primary => "primary"
  | secondary => "secondary"
  | all => "all"

/-- The name of a mode in documents. -/
def documentName : QueryMode → String
  | primary => "Primary"
  | secondary => "Secondary"
  | all => "All"

def every : List QueryMode :=
  [primary, secondary, all]

end QueryMode

/-- What a node does for a coordinate. -/
inductive Role
  | primary
  | secondary
  | none
deriving DecidableEq

/-- The owners of a coordinate: primaries in replica order, secondaries in order of preference. -/
structure Owners where
  primary : List NodeId
  secondary : List NodeId
deriving DecidableEq

namespace Owners

/-- The owners that a query asks for, primaries first. -/
def inMode (o : Owners) (mode : QueryMode) : List NodeId :=
  (if mode.wantsPrimary then o.primary else []) ++
    (if mode.wantsSecondary then o.secondary else [])

def every (o : Owners) : List NodeId :=
  o.primary ++ o.secondary

/-- The role of a node. One that stands in both lists is a primary. -/
def role (o : Owners) (id : NodeId) : Role :=
  if id ∈ o.primary then .primary else if id ∈ o.secondary then .secondary else .none

def filter (o : Owners) (keep : NodeId → Bool) : Owners :=
  ⟨o.primary.filter keep, o.secondary.filter keep⟩

/-- The owners as secondaries only, former primaries first. -/
def demote (o : Owners) : Owners :=
  ⟨[], o.every⟩

/-- The union of several owner lists: in the order given, later repeats dropped, and no primary
among the secondaries. -/
def union (lists : List Owners) : Owners :=
  let primary := (lists.flatMap Owners.primary).eraseDups
  let secondary := (lists.flatMap Owners.secondary).eraseDups
  ⟨primary, secondary.filter fun id => !primary.contains id⟩

def text (o : Owners) : String :=
  "primary=" ++ Text.quoteList o.primary ++ " secondary=" ++ Text.quoteList o.secondary

end Owners

end ReplicaRing
