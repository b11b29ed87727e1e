import ReplicaRing.Exclusions
import ReplicaRing.Json.Record

/-!
# Exclusions as documents
-/

namespace ReplicaRing.Exclusions

def document (e : Exclusions) : Json :=
  .ofTexts e.toList

def ofDocument? (json : Json) : Option Exclusions :=
  json.texts?.map ofList

end ReplicaRing.Exclusions
