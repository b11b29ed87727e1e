import ReplicaRing.HostGroups
import ReplicaRing.Json.Record

/-!
# Host groups as documents
-/

namespace ReplicaRing.HostGroups

/-- The groups as JSON, sorted by name, each with its servers sorted. -/
def document (t : HostGroups) : Json :=
  .ofFields (t.groups.toList.map fun (name, servers) => (name, .ofTexts servers.toList))

/-- Reads host groups; of several with one name the last holds. -/
def ofDocument? (json : Json) : Option HostGroups := do
  let groups ← (← json.members?).mapM fun (name, value) =>
    value.texts?.map fun servers => (name, Std.ExtTreeSet.ofList servers)
  return ⟨.ofList groups⟩

end ReplicaRing.HostGroups
