import ReplicaRing.Decimal.Reading

/-!
# Places in a document

A message about a document may end with the place it is about, a line and a column. The form of the
end alone tells that a place is meant, so a name at the end of a message that has this form counts
as one. Lines are counted from one: line zero stands for no place at all and is not shown, and the
numbers of any other place are shown without leading zeros.
-/

namespace ReplicaRing.Text

structure Place where
  line : Nat
  column : Nat
deriving DecidableEq

namespace Place

/-- What stands before the line. -/
def lineMark : String := " at line "

/-- What stands between the line and the column. -/
def columnMark : String := " column "

def text (p : Place) : String :=
  if p.line = 0 then ""
  else lineMark ++ toString p.line ++ columnMark ++ toString p.column

/-- The number that a text of digits alone spells, if it stays below `2 ^ 64`. -/
def readNumber? (s : List Char) : Option Nat :=
  if s.isEmpty || !s.all Char.isDigit then none
  else
    let n := Decimal.digitsValue s
    if n < UInt64.size then some n else none

/-- The place that a text spells from its first character to its last. -/
def read? (s : List Char) : Option Place := do
  let s ← lineMark.toList.isPrefixOf? s
  let line ← readNumber? (s.takeWhile Char.isDigit)
  let column ← readNumber? (← columnMark.toList.isPrefixOf? (s.dropWhile Char.isDigit))
  return ⟨line, column⟩

end Place

/-- The message with the place at its end, if there is one, as places are shown. -/
def settlePlace : List Char → List Char
  | [] => []
  | c :: rest =>
    match Place.read? (c :: rest) with
    | some place => place.text.toList
    | none => c :: settlePlace rest

example : settlePlace "s1 at line 0 column 5".toList = "s1".toList := by decide +kernel
example : settlePlace "s1 at line 02 column 00".toList = "s1 at line 2 column 0".toList := by
  decide +kernel
example : settlePlace "s1 at line 0 column 5 ".toList = "s1 at line 0 column 5 ".toList := by
  decide +kernel
example : settlePlace "s1 at line  column 5".toList = "s1 at line  column 5".toList := by
  decide +kernel

/-- Only the last place counts. -/
example : settlePlace "s1 at line 0 column 5 at line 0 column 6".toList =
    "s1 at line 0 column 5".toList := by
  decide +kernel

end ReplicaRing.Text
