import ReplicaRing.Convergence.Phase
import ReplicaRing.Convergence.RingVersion
import ReplicaRing.Decimal.Layout
import ReplicaRing.Owners
import ReplicaRing.Region
import ReplicaRing.Text.Place

/-!
# Errors

Every failure is a value that says what was wrong and with what. The wording is derived from it here
and nowhere else, so that code which reacts to a failure never looks at a text.
-/

namespace ReplicaRing

/-- What keeps regions, entries or a whole tree of rings from assigning every coordinate. -/
inductive RingDefect
  | reversedRegion (first last : Nat)
  | noEntries
  | startsElsewhere (entry ring : Region)
  | notContiguous (before after : Region)
  | endsElsewhere (entry ring : Region)
  | noPrimaryOwner (region : Region)
  | repeatedPrimaryOwner (region : Region)
  | allPrimariesExcluded (node : NodeId) (owners : List NodeId) (region : Region)
  | differentRegions (before after : Region)
  | noRing (node : NodeId)
  | notCovered (node : NodeId) (coordinate : Nat)
  | ownsItself (node : NodeId)
deriving DecidableEq

def RingDefect.text : RingDefect → String
  | reversedRegion first last =>
    "region start " ++ toString first ++ " exceeds end " ++ toString last
  | noEntries => "ring has no entries"
  | startsElsewhere entry ring =>
    "first entry " ++ entry.text ++ " does not start the ring region " ++ ring.text
  | notContiguous before after =>
    "entries " ++ before.text ++ " and " ++ after.text ++ " are not contiguous"
  | endsElsewhere entry ring =>
    "last entry " ++ entry.text ++ " does not end the ring region " ++ ring.text
  | noPrimaryOwner region => "region " ++ region.text ++ " has no primary owner"
  | repeatedPrimaryOwner region => "region " ++ region.text ++ " lists a primary owner twice"
  | allPrimariesExcluded node owners region =>
    "ring " ++ node ++ ": excluding " ++ Text.quoteList owners ++ " leaves region " ++
      region.text ++ " without a primary owner"
  | differentRegions before after =>
    "cannot diff maps over different regions " ++ before.text ++ " and " ++ after.text
  | noRing node => "node " ++ node ++ " owns regions but has no ring"
  | notCovered node coordinate =>
    "ring " ++ node ++ " does not cover coordinate " ++ Text.hex 16 coordinate
  | ownsItself node => "node " ++ node ++ " owns regions of its own ring"

inductive TopologyDefect
  | emptyId
  | groupWithServerClass (id : NodeId)
  | duplicateId (id : NodeId)
deriving DecidableEq

def TopologyDefect.text : TopologyDefect → String
  | emptyId => "node with empty id"
  | groupWithServerClass id => "intermediate node " ++ id ++ " cannot have class server"
  | duplicateId id => "duplicate node id: " ++ id

/-- What a storage policy cannot be asked. -/
inductive PolicyDefect
  | replicasInMode (policy : String) (mode : QueryMode)
  | policyOfBothRoles (policy : String)
deriving DecidableEq

def PolicyDefect.text : PolicyDefect → String
  | replicasInMode policy mode =>
    "policy " ++ policy ++ ": replica count requires a single role, not " ++ mode.text
  | policyOfBothRoles policy =>
    "policy " ++ policy ++ ": sub-policy lookup requires a single role"

inductive ConfigDefect
  | weight (name : String) (weight : Float)
  | unknownHostGroup (name : String)
  | initialTolerance (tolerance : Float)
  | toleranceGrowth (growth : Float)
  | toleranceCeiling (multiple : Float)
deriving DecidableEq

def ConfigDefect.text : ConfigDefect → String
  | weight name w => "weight for " ++ name ++ " must be positive, got " ++ Decimal.plain w
  | unknownHostGroup name => "unknown host group: " ++ name
  | initialTolerance tolerance =>
    "initial magnitude tolerance must be positive, got " ++ Decimal.plain tolerance
  | toleranceGrowth growth =>
    "tolerance growth must be greater than 1, got " ++ Decimal.plain growth
  | toleranceCeiling multiple =>
    "max tolerance multiplier must be at least 1, got " ++ Decimal.plain multiple

inductive LineFault
  | notTwoWords
  | notANumber
  | config (defect : ConfigDefect)
deriving DecidableEq

/-- Why a text or a document cannot be read. -/
inductive ParseFault
  /-- The text does not have the form of the document that is expected. -/
  | malformed
  | line (number : Nat) (fault : LineFault)
  | config (defect : ConfigDefect)
  /-- The document describes nodes that make no topology. -/
  | topology (defect : TopologyDefect)
  | unknownPhase (text : String)
deriving DecidableEq

/-- Why one attempt to place replicas cannot succeed, whatever the tolerance. -/
inductive PlacementDefect
  | noMembers (node : NodeId)
  | noPrimaryReplicas (policy : String)
  | weight (member : NodeId) (weight : Float)
  | tooManyUnits (units members capacity : Nat)
  | unplacedUnits (units : Nat)
  | overassignedUnits (units : Nat)
  | unownedOffset (offset : Nat) (node : NodeId) (layer : Nat)
  | ring (defect : RingDefect)
deriving DecidableEq

/-- How an attempt to place replicas fails. -/
inductive AttemptFailure
  /-- Rounding or capping takes a member too far from its share. -/
  | toleranceExceeded (member : NodeId) (deviation tolerance : Float)
  | structural (defect : PlacementDefect)
deriving DecidableEq

/-- Whether a coarser tolerance may help. -/
def AttemptFailure.mayRetry : AttemptFailure → Bool
  | toleranceExceeded .. => true
  | structural _ => false

/-- Why a node gets no ring. -/
inductive BuildFailure
  | placement (defect : PlacementDefect)
  /-- No tolerance of the schedule suffices; `last` tells how the last attempt failed. -/
  | toleranceExhausted (ceiling : Float) (last : Option AttemptFailure)
deriving DecidableEq

inductive Error
  | structuralBuild (node : NodeId) (failure : BuildFailure)
  | incomparable (left right : RingVersion)
  | invalidTransition (source target : Phase)
  | infeasible (region : Region) (owners : List NodeId)
  | topology (defect : TopologyDefect)
  | nodeNotFound (id : NodeId)
  | policy (defect : PolicyDefect)
  | policyNotFound (name : String)
  | invalidRing (defect : RingDefect)
  | pairNotFound (ring : RingVersion) (participant : NodeId)
  | config (defect : ConfigDefect)
  | parse (source : String) (fault : ParseFault)
  | versionsExhausted (version : UInt64)
  /-- The store of phases refuses a request. -/
  | storage (reason : String)
  /-- A file cannot be read as text. -/
  | io
deriving DecidableEq

namespace Error

def configText (defect : ConfigDefect) : String :=
  "config error: " ++ defect.text

/-- The text of a tree of nodes that is no topology. -/
def topologyText (defect : TopologyDefect) : String :=
  "topology error: " ++ defect.text

/-- The text of a ring that does not assign every coordinate. -/
def ringText (defect : RingDefect) : String :=
  "invalid ring: " ++ defect.text

end Error

def LineFault.text : LineFault → String
  | notTwoWords => "expected `<id> <weight>`"
  | notANumber => "weight is not a number"
  | config defect => Error.configText defect

def ParseFault.text : ParseFault → String
  | malformed => "malformed document"
  | line number fault => "line " ++ toString number ++ ": " ++ fault.text
  | config defect => Error.configText defect
  | topology defect =>
    String.ofList (Text.settlePlace (Error.topologyText defect).toList)
  | unknownPhase text => "unknown ring state: " ++ Text.quote text

def PlacementDefect.text : PlacementDefect → String
  | noMembers node => "node " ++ node ++ " has no eligible members"
  | noPrimaryReplicas policy => "policy " ++ policy ++ " requires zero primary replicas"
  | weight member w => "member " ++ member ++ " has non-positive weight " ++ Decimal.plain w
  | tooManyUnits units members capacity =>
    toString units ++ " units cannot be placed on " ++ toString members ++
      " members of capacity " ++ toString capacity
  | unplacedUnits units => toString units ++ " replica units left unplaced"
  | overassignedUnits units => toString units ++ " replica units over-assigned"
  | unownedOffset offset node layer =>
    "offset " ++ toString offset ++ " of node " ++ node ++ " has no owner in replica layer " ++
      toString layer
  | ring defect => Error.ringText defect

def AttemptFailure.text : AttemptFailure → String
  | toleranceExceeded member deviation tolerance =>
    "member " ++ member ++ " deviates from its weighted share by " ++
      Decimal.withExponent deviation ++ " (tolerance " ++ Decimal.withExponent tolerance ++ ")"
  | structural defect => defect.text

def BuildFailure.text : BuildFailure → String
  | placement defect => defect.text
  | toleranceExhausted ceiling last =>
    "no feasible partition up to tolerance " ++ Decimal.withExponent ceiling ++ ": " ++
      (last.map AttemptFailure.text).getD "no tolerance attempted"

namespace Error

/-- An advisory error reports a risk; every other one means that the call had no effect. -/
def isAdvisory : Error → Bool
  | infeasible .. => true
  | _ => false

def message : Error → String
  | structuralBuild node failure =>
    "structural build error at node " ++ node ++ ": " ++ failure.text
  | incomparable left right =>
    "incomparable ring identifiers: " ++ left.text ++ " vs " ++ right.text
  | invalidTransition source target =>
    "invalid ring state transition: " ++ source.name ++ " -> " ++ target.name
  | infeasible region owners =>
    "convergence infeasible: no viable primary owner for region " ++ region.text ++
      " (owners: " ++ Text.quoteList owners ++ ")"
  | topology defect => topologyText defect
  | nodeNotFound id => "node not found: " ++ id
  | policy defect => "storage policy error: " ++ defect.text
  | policyNotFound name => "storage policy not found: " ++ name
  | invalidRing defect => ringText defect
  | pairNotFound ring participant =>
    "ring state not found: ring " ++ ring.text ++ ", participant " ++ participant
  | config defect => configText defect
  | parse source fault => "parse error in " ++ source ++ ": " ++ fault.text
  | versionsExhausted version => "version counter exhausted at " ++ toString version.toNat
  | storage reason => "storage error: " ++ reason
  | io => "io error"

end Error

end ReplicaRing
