import ReplicaRing.Json.Number

/-!
# Reading JSON

Each function reads one thing at the front of a text and returns it with the rest, or `none` when it
is not there. Values nest without a limit; documents that must not nest deeply see to that
themselves. Every nested step comes after at least one character that is taken away, so the length
of the text bounds their number.
-/

namespace ReplicaRing.Json

/-- A character that may stand between the parts of a document. -/
def isSpace (c : Char) : Bool :=
  c = ' ' || c = '\n' || c = '\t' || c = '\r'

def skipSpace (s : List Char) : List Char :=
  s.dropWhile isSpace

def readWord? (word s : List Char) : Option (List Char) :=
  if word.isPrefixOf s then some (s.drop word.length) else none

/-! ### Strings -/

/-- What a string literal is made of: characters, and escaped halves of surrogate pairs. -/
inductive StringUnit
  | char (c : Char)
  | surrogate (n : Nat)

def hexDigit? (c : Char) : Option Nat :=
  if '0' ≤ c ∧ c ≤ '9' then some (c.toNat - '0'.toNat)
  else if 'a' ≤ c ∧ c ≤ 'f' then some (c.toNat - 'a'.toNat + 10)
  else if 'A' ≤ c ∧ c ≤ 'F' then some (c.toNat - 'A'.toNat + 10)
  else none

/-- The unit with the number that four hexadecimal digits spell. -/
def unitOfHex? (a b c d : Char) : Option StringUnit := do
  let n := (((← hexDigit? a) * 16 + (← hexDigit? b)) * 16 + (← hexDigit? c)) * 16 + (← hexDigit? d)
  return if 0xD800 ≤ n ∧ n < 0xE000 then .surrogate n else .char (Char.ofNat n)

/-- The character that a backslash and a letter or a mark stand for. -/
def escaped? (c : Char) : Option Char :=
  if c = '"' ∨ c = '\\' ∨ c = '/' then some c
  else if c = 'b' then some '\x08'
  else if c = 'f' then some '\x0c'
  else if c = 'n' then some '\n'
  else if c = 'r' then some '\r'
  else if c = 't' then some '\t'
  else none

/-- The rest of a string literal after its opening quote, and the rest of the text. -/
def readUnits? : List Char → Option (List StringUnit × List Char)
  | [] => none
  | '"' :: rest => some ([], rest)
  | '\\' :: 'u' :: a :: b :: c :: d :: rest => do
    let unit ← unitOfHex? a b c d
    let (units, s) ← readUnits? rest
    return (unit :: units, s)
  | '\\' :: c :: rest => do
    let char ← escaped? c
    let (units, s) ← readUnits? rest
    return (.char char :: units, s)
  | c :: rest => do
    let (units, s) ← if c = '\\' ∨ c.toNat < 0x20 then none else readUnits? rest
    return (.char c :: units, s)

/-- The character that the two halves of a surrogate pair stand for. -/
def ofSurrogates (high low : Nat) : Char :=
  Char.ofNat (0x10000 + (high - 0xD800) * 0x400 + (low - 0xDC00))

/-- The characters that units stand for, if every surrogate has its partner. -/
def charsOfUnits? : List StringUnit → Option (List Char)
  | [] => some []
  | .char c :: rest => (charsOfUnits? rest).map (c :: ·)
  | .surrogate high :: .surrogate low :: rest =>
    if high < 0xDC00 ∧ 0xDC00 ≤ low then (charsOfUnits? rest).map (ofSurrogates high low :: ·)
    else none
  | .surrogate _ :: _ => none

/-- A string literal after its opening quote. -/
def readString? (s : List Char) : Option (Option String × List Char) :=
  (readUnits? s).map fun (units, rest) => ((charsOfUnits? units).map String.ofList, rest)

/-! ### Values -/

/-- The key of a member, and the rest after its colon. -/
def readKey? (s : List Char) : Option (Option String × List Char) :=
  match skipSpace s with
  | '"' :: rest => do
    let (key, s) ← readString? rest
    match skipSpace s with
    | ':' :: rest => some (key, rest)
    | _ => none
  | _ => none

mutual

/-- A value; `steps` bounds the number of nested steps. -/
def readValue? : Nat → List Char → Option (Json × List Char)
  | 0, _ => none
  | steps + 1, s =>
    match skipSpace s with
    | '[' :: rest =>
      match skipSpace rest with
      | ']' :: rest => some (array [], rest)
      | rest => do
        let (value, s) ← readValue? steps rest
        let (values, s) ← readElements? steps s
        return (array (value :: values), s)
    | '\x7b' :: rest =>
      match skipSpace rest with
      | '\x7d' :: rest => some (object [], rest)
      | rest => do
        let (key, s) ← readKey? rest
        let (value, s) ← readValue? steps s
        let (members, s) ← readMembers? steps s
        return (object ((key, value) :: members), s)
    | '"' :: rest => (readString? rest).map fun (text, s) => (string text, s)
    | 'n' :: rest => (readWord? "ull".toList rest).map fun s => (null, s)
    | 't' :: rest => (readWord? "rue".toList rest).map fun s => (boolean true, s)
    | 'f' :: rest => (readWord? "alse".toList rest).map fun s => (boolean false, s)
    | s => (readNumber? s).map fun (literal, s) => (number literal, s)

/-- The elements of an array after one of them, up to the end of the array. -/
def readElements? : Nat → List Char → Option (List Json × List Char)
  | 0, _ => none
  | steps + 1, s =>
    match skipSpace s with
    | ']' :: rest => some ([], rest)
    | ',' :: rest => do
      let (value, s) ← readValue? steps rest
      let (values, s) ← readElements? steps s
      return (value :: values, s)
    | _ => none

/-- The members of an object after one of them, up to the end of the object. -/
def readMembers? : Nat → List Char → Option (List (Option String × Json) × List Char)
  | 0, _ => none
  | steps + 1, s =>
    match skipSpace s with
    | '\x7d' :: rest => some ([], rest)
    | ',' :: rest => do
      let (key, s) ← readKey? rest
      let (value, s) ← readValue? steps s
      let (members, s) ← readMembers? steps s
      return ((key, value) :: members, s)
    | _ => none

end

/-- The value at the front of a text, and the rest. -/
def read? (s : List Char) : Option (Json × List Char) :=
  readValue? (s.length + 1) s

end ReplicaRing.Json
