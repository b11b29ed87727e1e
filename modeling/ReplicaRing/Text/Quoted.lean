import ReplicaRing.Text.Hex
import ReplicaRing.Text.Unprintable

/-!
# Quoted text

Node ids are shown between double quotes wherever they stand in a list or in a message that has to
delimit them. Quotes, backslashes, tabs and line ends are escaped, and every character without a
glyph of its own is shown by its number, so that two different ids never look alike.
-/

namespace ReplicaRing.Text

/-- How a quoted text shows the character `c`. -/
def escapeChar (c : Char) : List Char :=
  if c = '"' then ['\\', '"']
  else if c = '\\' then ['\\', '\\']
  else if c = '\t' then ['\\', 't']
  else if c = '\n' then ['\\', 'n']
  else if c = '\r' then ['\\', 'r']
  else if c = Char.ofNat 0 then ['\\', '0']
  else if isUnprintable c then ['\\', 'u', '\x7b'] ++ hexDigits c.toNat ++ ['\x7d']
  else [c]

def quote (s : String) : String :=
  String.ofList ('"' :: s.toList.flatMap escapeChar ++ ['"'])

/-- The texts quoted, separated by commas, between square brackets. -/
def quoteList (texts : List String) : String :=
  "[" ++ ", ".intercalate (texts.map quote) ++ "]"

end ReplicaRing.Text
