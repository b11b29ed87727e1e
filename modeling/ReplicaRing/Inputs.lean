import ReplicaRing.Exclusions.Document
import ReplicaRing.HostGroups.Document
import ReplicaRing.Policy.Document
import ReplicaRing.Topology.Document
import ReplicaRing.Weights.Document

/-!
# Reading build inputs

What a build reads comes from files. Topologies, policies and host groups are JSON documents.
Weights and exclusions are documents too, or come in their line formats; the first character that is
not blank tells which. Nothing here touches a file: the content is given, and absent if the file
cannot be read.
-/

namespace ReplicaRing.Inputs

def textOf (content : Option ByteArray) : Except Error (List Char) :=
  match content.bind String.fromUTF8? with
  | some text => .ok text.toList
  | none => .error .io

/-- Reads a file with the name `source`. -/
def load {α : Type} (read : List Char → Except ParseFault α) (source : String)
    (content : Option ByteArray) : Except Error α :=
  (textOf content).bind fun text => (read text).mapError (.parse source)

/-- Whether the first character of a text that is not blank is `c`. -/
def opensWith (c : Char) (text : List Char) : Bool :=
  (Text.trimStart text).head? = some c

def topology : List Char → Except ParseFault Topology :=
  Json.readDocument Topology.ofDocument

def policies : List Char → Except ParseFault PolicyGroup :=
  Json.readPlain PolicyGroup.ofDocument?

def hostGroups : List Char → Except ParseFault HostGroups :=
  Json.readPlain HostGroups.ofDocument?

/-- Reads weights and checks them, whichever form they have. -/
def weights (text : List Char) : Except ParseFault Weights :=
  if opensWith '\x7b' text then do
    let w ← Json.readPlain Weights.ofDocument? text
    w.validate.mapError .config
    return w
  else Weights.ofLines text

/-- Reads exclusions in either form. -/
def exclusions (text : List Char) : Except ParseFault Exclusions :=
  if opensWith '[' text then Json.readPlain Exclusions.ofDocument? text
  else .ok (.ofLines text)

end ReplicaRing.Inputs
