import ReplicaRing.Error
import ReplicaRing.Json.Reading

/-!
# Records and alternatives in JSON

How documents use JSON values. A record is an object or an array of its fields in order; an object
may have further members, but no field twice. A choice among alternatives is an object with the name
of the alternative as its only key, or the name alone where there is nothing more to say.
-/

namespace ReplicaRing.Json

variable {α : Type}

def text? : Json → Option String
  | string text => text
  | _ => none

def elements? : Json → Option (List Json)
  | array elements => some elements
  | _ => none

def texts? (json : Json) : Option (List String) :=
  json.elements?.bind (·.mapM text?)

/-- The members of an object, whose keys have to be texts. -/
def members? : Json → Option (List (String × Json))
  | object members => members.mapM fun (key, value) => key.map (·, value)
  | _ => none

/-- The value of a field among the members of an object: none if it is absent. A repeated field
makes the object unreadable. -/
def field? (members : List (String × Json)) (name : String) : Option (Option Json) :=
  match members.filter (·.1 = name) with
  | [] => some none
  | [(_, value)] => some (some value)
  | _ => none

/-- The values of the fields of a record, those that are absent as `none`. -/
def record? (names : List String) : Json → Option (List (Option Json))
  | object members => (object members).members?.bind fun members => names.mapM (field? members)
  | array elements =>
    if elements.length ≤ names.length then
      some (elements.map some ++ List.replicate (names.length - elements.length) none)
    else none
  | _ => none

/-- A field that may be absent or `null`. -/
def optional? (read : Json → Option α) : Option Json → Option (Option α)
  | none => some none
  | some null => some none
  | some value => (read value).map some

/-- A field that has a value of its own when it is absent. -/
def orDefault? (default : α) (read : Json → Option α) : Option Json → Option α
  | none => some default
  | some value => read value

/-- The name of an alternative and what is said about it. -/
def alternative? : Json → Option (String × Json)
  | object [(some name, value)] => some (name, value)
  | _ => none

/-- The name of an alternative about which nothing is said. -/
def bareAlternative? : Json → Option String
  | string text => text
  | object [(some name, null)] => some name
  | _ => none

/-- Reads a text that is one document and nothing else but spaces. What is wrong with the value of
the document comes before what follows it. -/
def readDocument (read : Json → Except ParseFault α) (s : List Char) : Except ParseFault α :=
  match read? s with
  | none => .error .malformed
  | some (json, rest) =>
    (read json).bind fun a => if (skipSpace rest).isEmpty then .ok a else .error .malformed

/-- Reads a text that is one document, of a kind that is either well formed or not. -/
def readPlain (read : Json → Option α) : List Char → Except ParseFault α :=
  readDocument fun json =>
    match read json with
    | some a => .ok a
    | none => .error .malformed

end ReplicaRing.Json
