import ReplicaRing.Placement.Layer
import ReplicaRing.Placement.Quota
import ReplicaRing.Placement.Tolerance
import ReplicaRing.Ring

/-!
# Placing replicas

One node's region is placed on the children that take part. An attempt at a fixed tolerance settles
how many owners each coordinate gets, divides the replica units by weight, checks that nobody ends
up too far from its share, lays the units out in layers and reads the entries of the ring off them.
`place` repeats the attempt with the tolerances of a schedule.

Nothing but the check looks at the tolerance, and nothing before the layout looks at the earlier
ring: it decides only where the units go.
-/

namespace ReplicaRing

/-- A child that takes part in a placement. -/
structure Member where
  id : NodeId
  weight : Float
deriving DecidableEq

/-- What is to be placed. -/
structure PlacementRequest where
  /-- The node whose children are placed. -/
  node : NodeId
  policy : String
  region : Region
  /-- The children that take part, in the order of the topology. -/
  members : List Member
  primaryReplicas : Nat
  secondaryReplicas : Nat

/-- How many owners every coordinate gets. -/
structure ReplicaCounts where
  primary : Nat
  secondary : Nat
  /-- Whether a secondary owner is never a primary owner of the same coordinate. -/
  disjoint : Bool

namespace PlacementRequest

def memberIds (q : PlacementRequest) : List NodeId :=
  q.members.map Member.id

/-- The numbers of owners that the members allow. With more members than primary owners, the
secondary ones are taken from the others; otherwise every member is a primary owner already and may
be a secondary one as well. -/
def plan (q : PlacementRequest) : Except PlacementDefect ReplicaCounts :=
  let n := q.members.length
  if n = 0 then .error (.noMembers q.node)
  else if q.primaryReplicas = 0 then .error (.noPrimaryReplicas q.policy)
  else
    match q.members.find? fun m => !Binary64.isPositive m.weight with
    | some m => .error (.weight m.id m.weight)
    | none =>
      let primary := min q.primaryReplicas n
      if primary < n then .ok ⟨primary, min q.secondaryReplicas (n - primary), true⟩
      else .ok ⟨primary, min q.secondaryReplicas n, false⟩

/-- The number of units to place: one for each coordinate and primary owner. -/
def total (q : PlacementRequest) (plan : ReplicaCounts) : Nat :=
  q.region.size * plan.primary

def quotas (q : PlacementRequest) (plan : ReplicaCounts) : Except PlacementDefect (List Nat) :=
  Quota.divide (q.members.map Member.weight) (q.total plan) q.region.size

/-! ### The tolerance -/

/-- How far each member's part of the units is from its part of the weight. -/
def deviations (q : PlacementRequest) (total : Nat) (quotas : List Nat) :
    List (NodeId × Float) :=
  let totalWeight := (q.members.map Member.weight).foldl (· + ·) 0.0
  List.zipWith (fun m quota =>
    let achieved := Binary64.ofNat quota / Binary64.ofNat total
    (m.id, (achieved - m.weight / totalWeight).abs)) q.members quotas

/-- The larger of two deviations, of equal ones the later. -/
def worse (a b : NodeId × Float) : NodeId × Float :=
  if b.2 < a.2 then a else b

/-- The largest deviation, of equal ones the last. -/
def worst? : List (NodeId × Float) → Option (NodeId × Float)
  | [] => none
  | d :: rest => some (rest.foldl worse d)

/-- Refuses quotas that take a member further from its share than the tolerance allows. -/
def checkDeviation (q : PlacementRequest) (total : Nat) (quotas : List Nat) (tolerance : Float) :
    Except AttemptFailure Unit :=
  match worst? (q.deviations total quotas) with
  | some (member, deviation) =>
    if tolerance < deviation then .error (.toleranceExceeded member deviation tolerance) else .ok ()
  | none => .ok ()

/-! ### The layout -/

/-- The layers of an earlier ring, if it has the region and the number of primary owners that are
asked for. -/
def layersOfPrior? (q : PlacementRequest) (prior : Ring) (replicas : Nat) : Option (List Layer) :=
  if prior.region = q.region ∧ prior.primaryReplicas = replicas ∧
      prior.entries.toList.all (·.owners.primary.length = replicas) then
    some ((List.range replicas).map
      (Layer.ofEntries q.memberIds q.region.first prior.entries.toList))
  else none

/-- The layers of an earlier ring, adjusted to the quotas by moving as little as possible. -/
def adjustedLayers? (q : PlacementRequest) (prior : Ring) (replicas : Nat) (quotas : List Nat) :
    Option (List Layer) :=
  (q.layersOfPrior? prior replicas).bind fun layers =>
    Layer.fill? quotas (Layer.release quotas layers)

/-- The layers of a placement: those of the earlier ring where they can be adjusted, else fresh
ones. -/
def layers (q : PlacementRequest) (prior : Option Ring) (replicas : Nat) (quotas : List Nat) :
    List Layer :=
  (prior.bind fun ring => q.adjustedLayers? ring replicas quotas).getD
    (Layer.fresh quotas replicas q.region.size)

/-! ### The entries -/

/-- The owner of an offset in a layer. -/
def ownerAt? (layer : Layer) (offset : Nat) : Option Nat :=
  let next := (layer.dropWhile fun s => s.stop ≤ offset).head?
  (next.filter fun s => s.start ≤ offset).bind Span.owner

/-- The owners of an offset in every layer from layer `j` on. -/
def primariesAt (q : PlacementRequest) (offset j : Nat) :
    List Layer → Except PlacementDefect (List Nat)
  | [] => .ok []
  | layer :: rest =>
    match ownerAt? layer offset with
    | some owner => (q.primariesAt offset (j + 1) rest).map (owner :: ·)
    | none => .error (.unownedOffset offset q.node j)

/-- The secondary owners that go with primary ones: the members after the last of them, round in a
circle. -/
def secondaries (n : Nat) (plan : ReplicaCounts) (primaries : List Nat) : List Nat :=
  -- Going on from the last primary owner spreads the secondary copies over all members.
  let after := (primaries.getLast?.map (· + 1)).getD 0
  let circle := (List.range n).map fun k => (after + k) % n
  (circle.filter fun m => !(plan.disjoint && primaries.contains m)).take plan.secondary

def names (q : PlacementRequest) (places : List Nat) : List NodeId :=
  places.filterMap (q.memberIds[·]?)

/-- The entries that the layers amount to, one for every offset where a span of some layer starts.
-/
def entriesFrom (q : PlacementRequest) (plan : ReplicaCounts) (layers : List Layer) :
    List Nat → Except PlacementDefect (List Entry)
  | [] => .ok []
  | start :: rest => do
    let primaries ← q.primariesAt start 0 layers
    -- No span starts inside the piece, so each layer has one owner throughout it.
    let stop := rest.head?.getD q.region.size
    let owners : Owners :=
      ⟨q.names primaries, q.names (secondaries q.members.length plan primaries)⟩
    let entries ← q.entriesFrom plan layers rest
    return ((q.region.slice? start stop).map (⟨·, owners⟩)).toList ++ entries

/-- The ring that the layers amount to. -/
def ringOf (q : PlacementRequest) (plan : ReplicaCounts) (layers : List Layer) (tolerance : Float) :
    Except PlacementDefect Ring := do
  let entries ← q.entriesFrom plan layers (sortedDistinct (layers.flatten.map Span.start))
  match Ring.ofEntries? q.node q.policy q.region plan.primary plan.secondary tolerance entries with
  | .ok ring => .ok ring
  | .error defect => .error (.ring defect)

/-! ### Attempts -/

/-- One attempt at a fixed tolerance. -/
def attempt (q : PlacementRequest) (prior : Option Ring) (tolerance : Float) :
    Except AttemptFailure Ring := do
  let plan ← q.plan.mapError .structural
  let quotas ← (q.quotas plan).mapError .structural
  q.checkDeviation (q.total plan) quotas tolerance
  (q.ringOf plan (q.layers prior plan.primary quotas) tolerance).mapError .structural

/-- Attempts at each tolerance in turn, until one succeeds or fails in a way that no tolerance can
mend. -/
def escalate (q : PlacementRequest) (prior : Option Ring) (ceiling : Float) :
    Option AttemptFailure → List Float → Except BuildFailure Ring
  | last, [] => .error (.toleranceExhausted ceiling last)
  | _, tolerance :: rest =>
    match q.attempt prior tolerance with
    | .ok ring => .ok ring
    | .error (.structural defect) => .error (.placement defect)
    | .error failure => q.escalate prior ceiling (some failure) rest

/-- Places the replicas at the first tolerance of a configuration that suffices. The schedule is
collected before the first attempt, so nothing is placed where its loop does not end. -/
def place (q : PlacementRequest) (prior : Option Ring) (config : BuildConfig) :
    Except Error Ring :=
  (q.escalate prior config.ceiling none config.schedule).mapError (.structuralBuild q.node)

end PlacementRequest

end ReplicaRing
