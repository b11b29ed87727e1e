import ReplicaRing.Recipe
import ReplicaRing.Tree

/-!
# Building trees of rings

A build starts at the parent of its recipe and goes down from each node that gets a ring to those of
its children for which the policy of the node names one. The first failure in the order of the
topology ends the build.

What a subtree contributes is its `Yield`: the rings in the order in which they are made, and the
failure that cut it off, if any. A parallel build makes the yields of the children of the parent
side by side and enters their rings in some order of turns; a build one after the other enters the
first yield, then the second, and so on.
-/

namespace ReplicaRing

/-- The rings that a part of a build makes, each with its node, up to its first failure. -/
structure Yield where
  rings : List (NodeId × Ring)
  failure : Option Error

namespace Yield

def empty : Yield :=
  ⟨[], none⟩

def fail (e : Error) : Yield :=
  ⟨[], some e⟩

/-- One yield and then another, unless the first one failed. -/
def andThen (a b : Yield) : Yield :=
  match a.failure with
  | some _ => a
  | none => ⟨a.rings ++ b.rings, b.failure⟩

end Yield

namespace Recipe

/-- The ring of a node, close to the one it had in an earlier tree. -/
def ring (config : BuildConfig) (prior : Option Tree) (r : Recipe) (node : Node) :
    Except Error Ring := do
  let policy ← r.policy
  (r.request node policy).place (prior.bind (·.ring? node.id)) config

/-- The ring of a node as a yield. -/
def ringYield (config : BuildConfig) (prior : Option Tree) (r : Recipe) (node : Node) : Yield :=
  match r.ring config prior node with
  | .ok ring => ⟨[(node.id, ring)], none⟩
  | .error e => .fail e

mutual

/-- What a node and everything below it contribute. -/
def subtree (config : BuildConfig) (prior : Option Tree) : Recipe → Node → Yield
  | _, .server _ => .empty
  | r, .group id nodeClass children =>
    if r.expands (.group id nodeClass children) then
      (r.ringYield config prior (.group id nodeClass children)).andThen
        (match r.policy with
        | .ok policy => subtrees config prior r policy children
        | .error e => .fail e)
    else .empty

/-- What the children of a node contribute, one after the other. -/
def subtrees (config : BuildConfig) (prior : Option Tree) (r : Recipe)
    (policy : StoragePolicy) : List Node → Yield
  | [] => .empty
  | child :: rest =>
    (match r.childPolicy? policy child with
    | some name => subtree config prior (r.narrow child name) child
    | none => .empty).andThen (subtrees config prior r policy rest)

end

/-- The tree with rings entered in a given order. -/
def treeOf (r : Recipe) (rings : List (NodeId × Ring)) : Tree where
  topology := r.topology
  parent := r.parent
  rings := .ofList rings
  version := r.version
  created := r.created
  region := r.region

end Recipe

/-! ### Taking turns -/

/-- Takes the first element of the list at place `i` among several lists. -/
def takeTurn {α : Type} : Nat → List (List α) → Option (α × List (List α))
  | _, [] => none
  | 0, [] :: _ => none
  | 0, (a :: as) :: lists => some (a, as :: lists)
  | i + 1, list :: lists => (takeTurn i lists).map fun (a, rest) => (a, list :: rest)

/-- The elements of several lists in an order of turns: each turn names the list whose next element
comes. A turn at a list that has no element left is skipped, and what the turns leave over comes at
the end. -/
def interleave {α : Type} : List Nat → List (List α) → List α
  | [], lists => lists.flatten
  | i :: turns, lists =>
    match takeTurn i lists with
    | some (a, rest) => a :: interleave turns rest
    | none => interleave turns lists

/-! ### Builders -/

/-- A configuration with which rings can be built. -/
structure Builder where
  config : BuildConfig
  usable : config.defect? = none

namespace Builder

/-- A builder with a configuration, if it can be used. -/
def ofConfig (config : BuildConfig) : Except ConfigDefect Builder :=
  match h : config.defect? with
  | some defect => .error defect
  | none => .ok ⟨config, h⟩

def buildInOrder (b : Builder) (r : Recipe) (prior : Option Tree) : Except Error Tree := do
  let yield := r.subtree b.config prior (← r.topology.node r.parent)
  match yield.failure with
  | some e => .error e
  | none => .ok (r.treeOf yield.rings)

/-- What each child of a node contributes to a parallel build. -/
def childYields (b : Builder) (r : Recipe) (prior : Option Tree) (policy : StoragePolicy)
    (node : Node) : List Yield :=
  node.children.filterMap fun child =>
    (r.childPolicy? policy child).map fun name =>
      (r.narrow child name).subtree b.config prior child

/-- Builds a tree with the subtrees below the parent side by side. Their rings are entered in the
order of `turns`; all of them run to their end, and of their failures the one of the first child
counts. -/
def buildSideBySide (b : Builder) (turns : List Nat) (r : Recipe) (prior : Option Tree) :
    Except Error Tree := do
  let root ← r.topology.node r.parent
  if r.expands root then
    let ring ← r.ring b.config prior root
    let policy ← r.policy
    let yields := b.childYields r prior policy root
    match yields.findSome? Yield.failure with
    | some e => .error e
    | none => .ok (r.treeOf ((root.id, ring) :: interleave turns (yields.map Yield.rings)))
  else .ok (r.treeOf [])

/-- Builds a tree in the way that the configuration asks for. -/
def build (b : Builder) (r : Recipe) (prior : Option Tree) : Except Error Tree :=
  if b.config.parallel then b.buildSideBySide [] r prior else b.buildInOrder r prior

end Builder

end ReplicaRing
