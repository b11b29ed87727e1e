import ReplicaRing.Exclusions
import ReplicaRing.HostGroups
import ReplicaRing.Placement.Attempt
import ReplicaRing.Policy
import ReplicaRing.Topology
import ReplicaRing.Weights

/-!
# Recipes

A recipe holds everything that a build reads: the topology, the node at which the build starts, the
policy that holds there, weights, exclusions, and the host groups whose servers take part. Which
nodes may own regions follows from it: those from which a server that takes part is reached without
passing an excluded node.
-/

namespace ReplicaRing

/-- What a tree of rings is built from. -/
structure Recipe where
  topology : Topology
  /-- The node whose ring stands above all others. -/
  parent : NodeId
  policies : PolicyGroup
  /-- The policy that holds at `parent`. -/
  policyName : String
  weights : Weights
  exclusions : Exclusions
  hostGroups : HostGroups
  /-- The names of the host groups that take part. -/
  chosenGroups : List String
  /-- The servers of the chosen groups; without a choice every server takes part. -/
  chosenServers : Option (Std.ExtTreeSet NodeId)
  version : UInt64
  /-- When the tree is built, in milliseconds. -/
  created : UInt64
  region : Region

namespace Recipe

/-- A recipe for the whole identifier space: equal weights, no exclusions, every server takes part.
The node and the policy have to exist. -/
def ofPolicy (topology : Topology) (parent : NodeId) (policies : PolicyGroup) (policyName : String)
    (created : UInt64) : Except Error Recipe := do
  let _ ← topology.node parent
  let _ ← policies.policy policyName
  return {
    topology, parent, policies, policyName, created
    weights := .uniform
    exclusions := .empty
    hostGroups := .empty
    chosenGroups := []
    chosenServers := none
    version := 0
    region := .whole }

/-- The recipe for the servers of some host groups only. -/
def chooseGroups (r : Recipe) (table : HostGroups) (names : List String) :
    Except ConfigDefect Recipe :=
  (table.serversOfGroups names).map fun servers =>
    { r with hostGroups := table, chosenGroups := names, chosenServers := some servers }

/-- The recipe for a child, at which another policy holds. -/
def narrow (r : Recipe) (child : Node) (policyName : String) : Recipe :=
  { r with parent := child.id, policyName }

def policy (r : Recipe) : Except Error StoragePolicy :=
  r.policies.policy r.policyName

def selects (r : Recipe) (server : NodeId) : Bool :=
  r.chosenServers.all (·.contains server)

/-- Whether a node may own regions: a server that takes part is reached from it, and no node on the
way, itself included, is excluded. -/
def canOwn (r : Recipe) (node : Node) : Bool :=
  node.reaches (fun n => !r.exclusions.excludes n.id) r.selects

/-- The children of a node that may own regions, in the order of the topology. -/
def owningChildren (r : Recipe) (node : Node) : List Node :=
  node.children.filter r.canOwn

/-- The children that may own regions as members of a placement. -/
def members (r : Recipe) (node : Node) : List Member :=
  (r.owningChildren node).map fun child => ⟨child.id, r.weights.get child.id⟩

def expands (r : Recipe) (node : Node) : Bool :=
  !node.children.isEmpty && r.canOwn node

/-- What is to be placed at a node. -/
def request (r : Recipe) (node : Node) (policy : StoragePolicy) : PlacementRequest where
  node := node.id
  policy := policy.name
  region := r.region
  members := r.members node
  primaryReplicas := policy.primary.replicas.toNat
  secondaryReplicas := policy.secondaryReplicas

/-- The policy for a child that gets a ring: the first of those that apply to it. -/
def childPolicy? (r : Recipe) (policy : StoragePolicy) (child : Node) : Option String :=
  if child.isServer || !r.canOwn child then none
  else (policy.namesFor child.nodeClass child.id).head?

end Recipe

end ReplicaRing
