import ReplicaRing.Inputs
import ReplicaRing.Tree.Build

/-!
# The command line

The command builds a tree of rings from files and prints it. Its eight arguments are the topology,
the weights, the exclusions, the parent, the policies, the policy that holds at the parent, the host
groups, and the names of the host groups that take part. Everything but reading files and printing
is here.
-/

namespace ReplicaRing.CommandLine

/-- What a run of the command comes to. -/
inductive Result
  | built (tree : Tree)
  | failed (e : Error)
  | misused

structure Arguments where
  topology : String
  weights : String
  exclusions : String
  parent : NodeId
  policies : String
  policy : String
  hostGroups : String
  chosenGroups : String

/-- The arguments in their order, if their number is right. -/
def Arguments.ofList? : List String → Option Arguments
  | [topology, weights, exclusions, parent, policies, policy, hostGroups, chosenGroups] =>
    some ⟨topology, weights, exclusions, parent, policies, policy, hostGroups, chosenGroups⟩
  | _ => none

/-- The names of the files that the arguments refer to. -/
def Arguments.files (a : Arguments) : List String :=
  [a.topology, a.weights, a.exclusions, a.policies, a.hostGroups]

/-- Builds the tree; `content` gives what is in a file and `created` is the time. The files are
looked at in the order of the arguments. -/
def Arguments.build (a : Arguments) (content : String → Option ByteArray) (created : UInt64) :
    Except Error Tree := do
  let load {α : Type} (read : List Char → Except ParseFault α) (file : String) :=
    Inputs.load read file (content file)
  let topology ← load Inputs.topology a.topology
  let weights ← load Inputs.weights a.weights
  let exclusions ← load Inputs.exclusions a.exclusions
  let policies ← load Inputs.policies a.policies
  let hostGroups ← load Inputs.hostGroups a.hostGroups
  let recipe ← Recipe.ofPolicy topology a.parent policies a.policy created
  let recipe ← ({ recipe with weights, exclusions }.chooseGroups hostGroups
    (hostGroupNames a.chosenGroups.toList)).mapError .config
  let builder ← (Builder.ofConfig .standard).mapError .config
  builder.build recipe none

def run (content : String → Option ByteArray) (created : UInt64) (args : List String) : Result :=
  match Arguments.ofList? args with
  | none => .misused
  | some a =>
    match a.build content created with
    | .ok tree => .built tree
    | .error e => .failed e

namespace Result

def status : Result → UInt32
  | built _ => 0
  | failed _ => 1
  | misused => 2

/-- What the command prints; the tree is followed by an empty line. -/
def output : Result → String
  | built tree => tree.text ++ "\n"
  | failed _ | misused => ""

/-- What the command says about a run that did not build a tree. -/
def complaint : Result → String
  | built _ => ""
  | failed e => "Ring tree build failed: " ++ e.message ++ "\n"
  | misused =>
    "usage: ringtree <topology> <weights> <exclusionList> <ringParentID> <storagePolicyGroup> " ++
      "<storagePolicyName> <HostGroupTableFile> <HostGroup,...>\n"

end Result

end ReplicaRing.CommandLine
