import ReplicaRing.Json.Record
import ReplicaRing.Topology

/-!
# Topologies as documents

A topology is written as its root node. A document may nest 127 objects and arrays at most: a server
takes two of them, and a group takes three for itself and each generation below it takes three more.
-/

namespace ReplicaRing

def NodeClass.document (c : NodeClass) : Json :=
  .ofText c.name

def NodeClass.ofDocument? (json : Json) : Option NodeClass :=
  json.bareAlternative?.bind NodeClass.ofName?

namespace Node

mutual

def document : Node → Json
  | server id => .ofFields [("server", .ofFields [("id", .ofText id)])]
  | group id nodeClass children =>
    .ofFields [("intermediate", .ofFields
      [("id", .ofText id), ("class", nodeClass.document),
        ("children", .array (documents children))])]

def documents : List Node → List Json
  | [] => []
  | node :: rest => node.document :: documents rest

end

/-- Reads a server from what its alternative holds. -/
def serverOfDocument? (body : Json) : Option Node := do
  match ← body.record? ["id"] with
  | [some id] => return server (← id.text?)
  | _ => none

/-- Reads a node whose document nests `containers` objects and arrays at most. -/
def ofDocument? : Nat → Json → Option Node
  | containers + 3, json => do
    match ← json.alternative? with
    | ("server", body) => serverOfDocument? body
    | ("intermediate", body) =>
      match ← body.record? ["id", "class", "children"] with
      | [some id, some nodeClass, some children] =>
        let children ← (← children.elements?).mapM (ofDocument? containers)
        return group (← id.text?) (← NodeClass.ofDocument? nodeClass) children
      | _ => none
    | _ => none
  | 2, json => do
    match ← json.alternative? with
    | ("server", body) => serverOfDocument? body
    | _ => none
  | _, _ => none

end Node

namespace Topology

/-- The number of objects and arrays that a document may nest. -/
def nestingLimit : Nat :=
  127

def document (t : Topology) : Json :=
  t.root.document

def ofDocument (json : Json) : Except ParseFault Topology :=
  match Node.ofDocument? nestingLimit json with
  | some root => (ofNode? root).mapError .topology
  | none => .error .malformed

end Topology

end ReplicaRing
