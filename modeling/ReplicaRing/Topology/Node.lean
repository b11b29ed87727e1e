import ReplicaRing.Owners

/-!
# Nodes of the topology

A cluster is a tree: servers are its leaves, and groups such as racks and datacenters stand above
them. The functions on a tree come in pairs, one on a node and one on the children of a group, so
that each is a recursion on the tree itself.
-/

namespace ReplicaRing

/-- What a node of the topology is. -/
inductive NodeClass
  | server
  | rack
  | cabinet
  | datacenter
  | region
  | root
deriving DecidableEq

namespace NodeClass

def every : List NodeClass :=
  [server, rack, cabinet, datacenter, region, root]

def name : NodeClass → String
  | server => "server"
  | rack => "rack"
  | cabinet => "cabinet"
  | datacenter => "datacenter"
  | region => "region"
  | root => "root"

def ofName? (text : String) : Option NodeClass :=
  every.find? fun c => c.name = text

theorem ofName?_name (c : NodeClass) : ofName? c.name = some c := by
  cases c <;> decide

end NodeClass

/-- A node of the topology with everything below it. -/
inductive Node
  | server (id : NodeId)
  | group (id : NodeId) (nodeClass : NodeClass) (children : List Node)

namespace Node

/-- What holds of servers, and of a group if it holds of its children, holds of every node. -/
@[elab_as_elim]
theorem induct {motive : Node → Prop} (server : ∀ id, motive (.server id))
    (group : ∀ id nodeClass children, (∀ child ∈ children, motive child) →
      motive (.group id nodeClass children)) : ∀ node, motive node
  | .server id => server id
  | .group id nodeClass children =>
    group id nodeClass children fun child _ => induct server group child

def id : Node → NodeId
  | server id => id
  | group id _ _ => id

def nodeClass : Node → NodeClass
  | server _ => .server
  | group _ nodeClass _ => nodeClass

/-- The children of a group, in the order of the topology; a server has none. -/
def children : Node → List Node
  | server _ => []
  | group _ _ children => children

/-- Whether a node is a leaf made to hold data. -/
def isServer : Node → Bool
  | server _ => true
  | group .. => false

mutual

/-- The servers at or below a node, depth first. -/
def servers : Node → List NodeId
  | server id => [id]
  | group _ _ children => serversOfAll children

/-- The servers at or below several nodes, depth first. -/
def serversOfAll : List Node → List NodeId
  | [] => []
  | node :: rest => node.servers ++ serversOfAll rest

end

mutual

/-- A node and every node below it, depth first. -/
def nodes : Node → List Node
  | server id => [server id]
  | group id nodeClass children => group id nodeClass children :: nodesOfAll children

/-- Several nodes and every node below them, depth first. -/
def nodesOfAll : List Node → List Node
  | [] => []
  | node :: rest => node.nodes ++ nodesOfAll rest

end

mutual

/-- Whether a server that satisfies `wanted` is reached from a node through nodes that all satisfy
`keep`, both ends included. A node that does not satisfy `keep` cuts off everything below it. -/
def reaches (keep : Node → Bool) (wanted : NodeId → Bool) : Node → Bool
  | server id => keep (server id) && wanted id
  | group id nodeClass children =>
    keep (group id nodeClass children) && reachesFromAny keep wanted children

/-- Whether such a server is reached from one of several nodes. -/
def reachesFromAny (keep : Node → Bool) (wanted : NodeId → Bool) : List Node → Bool
  | [] => false
  | node :: rest => node.reaches keep wanted || reachesFromAny keep wanted rest

end

mutual

/-- Equality of nodes is decided by comparing them part by part. -/
def decideEq : (a b : Node) → Decidable (a = b)
  | server i, server j =>
    if h : i = j then isTrue (h ▸ rfl) else isFalse fun e => h (Node.server.inj e)
  | group i c children, group j d others =>
    if h : i = j ∧ c = d then
      match decideAllEq children others with
      | isTrue e => isTrue (by rw [h.1, h.2, e])
      | isFalse e => isFalse fun g => e (Node.group.inj g).2.2
    else isFalse fun g => h ⟨(Node.group.inj g).1, (Node.group.inj g).2.1⟩
  | server _, group .. => isFalse nofun
  | group .., server _ => isFalse nofun

/-- Equality of lists of nodes. -/
def decideAllEq : (as bs : List Node) → Decidable (as = bs)
  | [], [] => isTrue rfl
  | a :: as, b :: bs =>
    match decideEq a b, decideAllEq as bs with
    | isTrue h, isTrue t => isTrue (by rw [h, t])
    | isFalse h, _ => isFalse fun e => h (List.cons.inj e).1
    | _, isFalse t => isFalse fun e => t (List.cons.inj e).2
  | [], _ :: _ => isFalse nofun
  | _ :: _, [] => isFalse nofun

end

instance : DecidableEq Node :=
  decideEq

end Node

end ReplicaRing
