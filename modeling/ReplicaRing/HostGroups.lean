import ReplicaRing.Error
import ReplicaRing.Text.Blank
import Std.Data.ExtTreeMap
import Std.Data.ExtTreeSet

/-!
# Host groups

Named sets of servers. A build may be restricted to the servers of some groups; a name that is not
in the table is an error, so that a misspelt one cannot silently leave no server at all.
-/

namespace ReplicaRing

/-- Sets of servers by name. -/
structure HostGroups where
  groups : Std.ExtTreeMap String (Std.ExtTreeSet NodeId)
deriving DecidableEq

namespace HostGroups

def empty : HostGroups :=
  ⟨∅⟩

def find? (t : HostGroups) (name : String) : Option (Std.ExtTreeSet NodeId) :=
  t.groups[name]?

/-- The table with servers added to a group, which need not exist before. -/
def extend (t : HostGroups) (name : String) (servers : List NodeId) : HostGroups :=
  ⟨t.groups.insert name (((t.find? name).getD ∅).insertMany servers)⟩

def serversOfGroups (t : HostGroups) : List String → Except ConfigDefect (Std.ExtTreeSet NodeId)
  | [] => .ok ∅
  | name :: rest =>
    match t.find? name with
    | some servers => (t.serversOfGroups rest).map servers.union
    | none => .error (.unknownHostGroup name)

def size (t : HostGroups) : Nat :=
  t.groups.size

end HostGroups

/-- Reads a list of group names: separated by commas, blanks around them and empty ones dropped. -/
def hostGroupNames (text : List Char) : List String :=
  ((text.splitOn ',').map Text.trim).filterMap fun name =>
    if name.isEmpty then none else some (String.ofList name)

end ReplicaRing
