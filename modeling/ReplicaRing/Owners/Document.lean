import ReplicaRing.Json.Record
import ReplicaRing.Owners

/-!
# Query modes as documents
-/

namespace ReplicaRing.QueryMode

def document (mode : QueryMode) : Json :=
  .ofText mode.documentName

def ofDocument? (json : Json) : Option QueryMode :=
  json.bareAlternative?.bind fun name => every.find? fun mode => mode.documentName = name

end ReplicaRing.QueryMode
