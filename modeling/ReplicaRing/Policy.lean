import ReplicaRing.Error
import ReplicaRing.Topology.Node
import Std.Data.ExtTreeMap
import Std.Data.ExtTreeSet

/-!
# Storage policies

A storage policy says how many owners each region gets at one level of the topology, separately for
primary and secondary owners, and which policies apply to the children one level down. Policies are
collected in groups, where each is known by its name.
-/

namespace ReplicaRing

/-- Which policy applies to a child. -/
structure ChildRule where
  /-- The class of the children that the rule is for. -/
  nodeClass : NodeClass
  policy : String
  /-- If present, the rule is only for these children. -/
  ids : Option (Std.ExtTreeSet NodeId)
deriving DecidableEq

/-- Whether a rule is for a child, which is taken to have the class `nodeClass`. -/
def ChildRule.covers (rule : ChildRule) (nodeClass : NodeClass) (child : NodeId) : Bool :=
  rule.nodeClass = nodeClass && rule.ids.all (·.contains child)

/-- What a storage policy asks for in one role. -/
structure RolePolicy where
  /-- The number of children that own each region in this role. -/
  replicas : UInt32
  /-- The rules for the next level down, in order. -/
  children : List ChildRule
deriving DecidableEq

/-- The policies that apply to a child, in the order of the rules. -/
def RolePolicy.namesFor (p : RolePolicy) (nodeClass : NodeClass) (child : NodeId) : List String :=
  (p.children.filter (·.covers nodeClass child)).map ChildRule.policy

/-- The rules of replication at one level of the topology. -/
structure StoragePolicy where
  name : String
  /-- The class of the nodes that the policy is made for. -/
  nodeClass : NodeClass
  primary : RolePolicy
  secondary : Option RolePolicy
deriving DecidableEq

namespace StoragePolicy

def secondaryReplicas (p : StoragePolicy) : Nat :=
  (p.secondary.map fun s => s.replicas.toNat).getD 0

def replicas (p : StoragePolicy) : QueryMode → Except PolicyDefect Nat
  | .primary => .ok p.primary.replicas.toNat
  | .secondary => .ok p.secondaryReplicas
  | .all => .error (.replicasInMode p.name .all)

/-- The replicas of both roles. The sum has 32 bits, as the counts have, and wraps beyond them. -/
def replicaTotal (p : StoragePolicy) : Nat :=
  (p.primary.replicas + (p.secondary.map RolePolicy.replicas).getD 0).toNat

def rolePolicy (p : StoragePolicy) : QueryMode → Except PolicyDefect (Option RolePolicy)
  | .primary => .ok (some p.primary)
  | .secondary => .ok p.secondary
  | .all => .error (.policyOfBothRoles p.name)

/-- The policies that apply to a child, those of the primary role first, each once. -/
def namesFor (p : StoragePolicy) (nodeClass : NodeClass) (child : NodeId) : List String :=
  ((p.primary :: p.secondary.toList).flatMap (·.namesFor nodeClass child)).eraseDups

def text (p : StoragePolicy) : String :=
  p.nodeClass.name ++ ":" ++ p.name ++ " primary=" ++ toString p.primary.replicas.toNat ++
    " secondary=" ++ toString p.secondaryReplicas

end StoragePolicy

/-- Storage policies by their names. -/
structure PolicyGroup where
  policies : Std.ExtTreeMap String StoragePolicy
  named : ∀ (name : String) (policy : StoragePolicy),
    policies[name]? = some policy → policy.name = name

namespace PolicyGroup

def empty : PolicyGroup where
  policies := ∅
  named := by simp

/-- The group with one policy more, in place of one with the same name. -/
def insert (g : PolicyGroup) (policy : StoragePolicy) : PolicyGroup where
  policies := g.policies.insert policy.name policy
  named name other h := by
    rw [Std.ExtTreeMap.getElem?_insert] at h
    split at h
    · rename_i heq
      cases h
      exact Std.LawfulEqCmp.eq_of_compare heq
    · exact g.named name other h

/-- The policies of a list; of several with one name the last. -/
def ofList (policies : List StoragePolicy) : PolicyGroup :=
  policies.foldl insert empty

/-- The policies of a group, sorted by name. -/
def toList (g : PolicyGroup) : List StoragePolicy :=
  g.policies.toList.map Prod.snd

def policy (g : PolicyGroup) (name : String) : Except Error StoragePolicy :=
  match g.policies[name]? with
  | some policy => .ok policy
  | none => .error (.policyNotFound name)

def size (g : PolicyGroup) : Nat :=
  g.policies.size

end PolicyGroup

end ReplicaRing
