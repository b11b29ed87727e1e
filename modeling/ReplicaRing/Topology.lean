import ReplicaRing.Error
import ReplicaRing.Topology.Node
import Std.Data.ExtTreeMap

/-!
# Topologies

A topology is a tree of nodes in which every node is known by its id: ids are not empty, no two
nodes share one, and no group has the class of a server. `Topology.ofNode?` enters the nodes of a
tree into an index, depth first, and stops at the first one that cannot be entered.
-/

namespace ReplicaRing

abbrev NodeIndex := Std.ExtTreeMap NodeId Node

/-- Enters a single node into an index. -/
def Node.enter (node : Node) (index : NodeIndex) : Except TopologyDefect NodeIndex :=
  if node.id.isEmpty then .error .emptyId
  else if !node.isServer && node.nodeClass = .server then .error (.groupWithServerClass node.id)
  else if index.contains node.id then .error (.duplicateId node.id)
  else .ok (index.insert node.id node)

mutual

/-- Enters a node and everything below it into an index. -/
def Node.register : Node → NodeIndex → Except TopologyDefect NodeIndex
  | .server id, index => (Node.server id).enter index
  | .group id nodeClass children, index =>
    ((Node.group id nodeClass children).enter index).bind (Node.registerAll children)

/-- Enters several nodes and everything below them into an index. -/
def Node.registerAll : List Node → NodeIndex → Except TopologyDefect NodeIndex
  | [], index => .ok index
  | node :: rest, index => (node.register index).bind (Node.registerAll rest)

end

/-- The shape of a cluster: a tree of nodes with an index. -/
structure Topology where
  root : Node
  index : NodeIndex
  registered : root.register ∅ = .ok index
deriving DecidableEq

namespace Topology

/-- The topology with a root, if its nodes can be told apart. -/
def ofNode? (root : Node) : Except TopologyDefect Topology :=
  match h : root.register ∅ with
  | .ok index => .ok ⟨root, index, h⟩
  | .error defect => .error defect

/-- A topology is determined by its root. -/
theorem ofNode?_root (t : Topology) : ofNode? t.root = .ok t := by
  obtain ⟨root, index, registered⟩ := t
  unfold ofNode?
  split
  · rename_i index' h
    have : index' = index := Except.ok.inj (h.symm.trans registered)
    subst this
    rfl
  · rename_i defect h
    exact nomatch h.symm.trans registered

def find? (t : Topology) (id : NodeId) : Option Node :=
  t.index[id]?

def node (t : Topology) (id : NodeId) : Except Error Node :=
  match t.find? id with
  | some node => .ok node
  | none => .error (.nodeNotFound id)

def contains (t : Topology) (id : NodeId) : Bool :=
  t.index.contains id

/-- The number of nodes of every class. -/
def size (t : Topology) : Nat :=
  t.index.size

def servers (t : Topology) : List NodeId :=
  t.root.servers

end Topology

end ReplicaRing
