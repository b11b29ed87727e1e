import ReplicaRing.Json.Record
import ReplicaRing.Policy
import ReplicaRing.Topology.Document

/-!
# Storage policies as documents

A policy group is an array of policies. What is optional in a policy is left out when it is absent;
the rules for children are always written, though they may be left out in what is read.
-/

namespace ReplicaRing

def ChildRule.document (rule : ChildRule) : Json :=
  .ofFields <|
    [("node_class", rule.nodeClass.document), ("policy_name", .ofText rule.policy)] ++
      (rule.ids.map fun ids => ("node_ids", Json.ofTexts ids.toList)).toList

def nodeSetOfDocument? (json : Json) : Option (Std.ExtTreeSet NodeId) :=
  json.texts?.map (.ofList ·)

def ChildRule.ofDocument? (json : Json) : Option ChildRule := do
  match ← json.record? ["node_class", "policy_name", "node_ids"] with
  | [some nodeClass, some policy, ids] =>
    return ⟨← NodeClass.ofDocument? nodeClass, ← policy.text?,
      ← Json.optional? nodeSetOfDocument? ids⟩
  | _ => none

def RolePolicy.document (p : RolePolicy) : Json :=
  .ofFields [("replicas", .ofNat p.replicas.toNat),
    ("children", .array (p.children.map ChildRule.document))]

def RolePolicy.ofDocument? (json : Json) : Option RolePolicy := do
  match ← json.record? ["replicas", "children"] with
  | [some replicas, children] =>
    let read (json : Json) := json.elements?.bind (·.mapM ChildRule.ofDocument?)
    return ⟨← replicas.word32?, ← Json.orDefault? [] read children⟩
  | _ => none

def StoragePolicy.document (p : StoragePolicy) : Json :=
  .ofFields <|
    [("name", .ofText p.name), ("node_class", p.nodeClass.document),
      ("primary", p.primary.document)] ++
      (p.secondary.map fun s => ("secondary", s.document)).toList

def StoragePolicy.ofDocument? (json : Json) : Option StoragePolicy := do
  match ← json.record? ["name", "node_class", "primary", "secondary"] with
  | [some name, some nodeClass, some primary, secondary] =>
    return ⟨← name.text?, ← NodeClass.ofDocument? nodeClass, ← RolePolicy.ofDocument? primary,
      ← Json.optional? RolePolicy.ofDocument? secondary⟩
  | _ => none

def PolicyGroup.document (g : PolicyGroup) : Json :=
  .array (g.toList.map StoragePolicy.document)

def PolicyGroup.ofDocument? (json : Json) : Option PolicyGroup := do
  return .ofList (← (← json.elements?).mapM StoragePolicy.ofDocument?)

end ReplicaRing
