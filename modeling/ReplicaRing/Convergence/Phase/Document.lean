import ReplicaRing.Convergence.Phase
import ReplicaRing.Json.Record

/-!
# Phases in documents and in bytes

A phase is stored under its name. Where no phase has been stored yet there are no bytes at all.
-/

namespace ReplicaRing.Phase

def document (s : Phase) : Json :=
  .ofText s.name

def ofDocument? (json : Json) : Option Phase :=
  json.bareAlternative?.bind ofName?

/-- The phase with a name, or what is wrong with the name. -/
def ofText (text : String) : Except ParseFault Phase :=
  match ofName? text with
  | some s => .ok s
  | none => .error (.unknownPhase text)

def toBytes (s : Phase) : ByteArray :=
  s.name.toUTF8

def ofBytes (bytes : ByteArray) : Except ParseFault (Option Phase) :=
  if bytes.isEmpty then .ok none
  else
    match String.fromUTF8? bytes with
    | some text => (ofText text).map some
    | none => .error .malformed

end ReplicaRing.Phase
