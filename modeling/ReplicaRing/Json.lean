import ReplicaRing.Text.Hex

/-!
# JSON values

The documents that describe a cluster are JSON. A value keeps what documents may look at: numbers as
they were written, since each use decides which numbers it takes, and the members of an object in
their order with repeats, since some documents refuse a repeated key and others let the last one
hold.

A string literal can escape half of a surrogate pair, which stands for no text. Such a literal is
kept as `none`: it does no harm where nobody looks at it.
-/

namespace ReplicaRing

inductive Json
  | null
  | boolean (b : Bool)
  /-- A number, as it is written. -/
  | number (literal : List Char)
  | string (text : Option String)
  | array (elements : List Json)
  | object (members : List (Option String × Json))

namespace Json

def ofText (s : String) : Json :=
  string (some s)

def ofNat (n : Nat) : Json :=
  number (Nat.toDigits 10 n)

def ofTexts (texts : List String) : Json :=
  array (texts.map ofText)

def ofFields (fields : List (String × Json)) : Json :=
  object (fields.map fun (name, value) => (some name, value))

/-! ### Writing -/

/-- How a string literal shows a character: quotes, backslashes and control characters are
escaped. -/
def escapeChar (c : Char) : List Char :=
  if c = '"' then ['\\', '"']
  else if c = '\\' then ['\\', '\\']
  else if c = '\n' then ['\\', 'n']
  else if c = '\t' then ['\\', 't']
  else if c = '\r' then ['\\', 'r']
  else if c = '\x08' then ['\\', 'b']
  else if c = '\x0c' then ['\\', 'f']
  else if c.toNat < 0x20 then '\\' :: 'u' :: (Text.hex 4 c.toNat).toList
  else [c]

/-- A string literal. What stands for no text is written as half of a surrogate pair. -/
def writeString : Option String → List Char
  | some s => '"' :: s.toList.flatMap escapeChar ++ ['"']
  | none => "\"\\ud800\"".toList

mutual

/-- A value without blanks. -/
def write : Json → List Char
  | null => "null".toList
  | boolean true => "true".toList
  | boolean false => "false".toList
  | number literal => literal
  | string text => writeString text
  | array [] => ['[', ']']
  | array (value :: rest) => '[' :: value.write ++ writeElements rest
  | object [] => ['\x7b', '\x7d']
  | object ((key, value) :: rest) =>
    '\x7b' :: writeString key ++ ':' :: value.write ++ writeMembers rest

/-- The elements of an array after its first one, and the end of the array. -/
def writeElements : List Json → List Char
  | [] => [']']
  | value :: rest => ',' :: value.write ++ writeElements rest

/-- The members of an object after its first one, and the end of the object. -/
def writeMembers : List (Option String × Json) → List Char
  | [] => ['\x7d']
  | (key, value) :: rest => ',' :: writeString key ++ ':' :: value.write ++ writeMembers rest

end

def text (json : Json) : String :=
  String.ofList json.write

end Json

end ReplicaRing
