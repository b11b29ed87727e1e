/-!
# Lines

A line ends at a line feed, and one carriage return right before that line feed belongs to the line
end. What follows the last line feed is a line of its own unless it is empty.
-/

namespace ReplicaRing.Text

/-- The line without a carriage return at its end; the characters come last first. -/
def dropReturn : List Char → List Char
  | '\r' :: line => line
  | line => line

/-- The lines of a text; `line` holds the current line so far, last character first. -/
def linesFrom (line : List Char) : List Char → List (List Char)
  | [] => if line.isEmpty then [] else [line.reverse]
  | c :: rest =>
    if c = '\n' then (dropReturn line).reverse :: linesFrom [] rest else linesFrom (c :: line) rest

/-- The lines of a text, without their ends. -/
def lines (s : List Char) : List (List Char) :=
  linesFrom [] s

/-- The part of a line before its first `#`: the rest is a comment. -/
def beforeComment (line : List Char) : List Char :=
  line.takeWhile (· != '#')

end ReplicaRing.Text
