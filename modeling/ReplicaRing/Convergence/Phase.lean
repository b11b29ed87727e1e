/-!
# Phases of a convergence

A participant that takes part in the convergence of a ring version goes through the phases in one
order, from `initial` to `closed`. It may give up at any phase before the end, and from `initial` it
may join in at any later phase.
-/

namespace ReplicaRing

/-- The phase of one participant for one ring version. -/
inductive Phase
  | initial
  | ready1
  | ready2
  | localComplete1
  | allComplete1
  | allComplete2
  | closed
  | abandoned
deriving DecidableEq

namespace Phase

/-- Every phase: the chain of phases in order, then `abandoned`. -/
def every : List Phase :=
  [initial, ready1, ready2, localComplete1, allComplete1, allComplete2, closed, abandoned]

def next? : Phase → Option Phase
  | initial => some ready1
  | ready1 => some ready2
  | ready2 => some localComplete1
  | localComplete1 => some allComplete1
  | allComplete1 => some allComplete2
  | allComplete2 => some closed
  | closed => none
  | abandoned => none

/-- A final phase is never left. -/
def isFinal : Phase → Bool
  | closed | abandoned => true
  | _ => false

/-- A participant in a passive phase answers queries and initiates nothing. -/
def isPassive (s : Phase) : Bool :=
  s = closed

/-- Whether a participant may move from the phase `source` to the phase `target`: from `initial` to
any other, from a later phase to the next one or to `abandoned`, from a final one nowhere. -/
def canMove (source target : Phase) : Bool :=
  if source.isFinal then false
  else if source = initial then target != initial
  else target = abandoned || source.next? = some target

/-- The phases from `s` on, each the successor of the one before, cut off after `n`. -/
def chain : Nat → Phase → List Phase
  | 0, _ => []
  | n + 1, s => s :: (s.next?.map (chain n)).getD []

/-- Whether a participant seen in the phase `observed` has reached the phase `required`: it is there
or further along the chain. Only `abandoned` reaches `abandoned`. -/
def satisfiedBy (required observed : Phase) : Bool :=
  (chain every.length required).contains observed

/-- The name of a phase in messages and in documents. -/
def name : Phase → String
  | initial => "INITIAL"
  | ready1 => "READY_FOR_CONVERGENCE_1"
  | ready2 => "READY_FOR_CONVERGENCE_2"
  | localComplete1 => "LOCAL_CONVERGENCE_COMPLETE_1"
  | allComplete1 => "ALL_CONVERGENCE_COMPLETE_1"
  | allComplete2 => "ALL_CONVERGENCE_COMPLETE_2"
  | closed => "CLOSED"
  | abandoned => "ABANDONED"

def ofName? (text : String) : Option Phase :=
  every.find? fun s => s.name = text

theorem ofName?_name (s : Phase) : ofName? s.name = some s := by
  cases s <;> decide

end Phase

end ReplicaRing
