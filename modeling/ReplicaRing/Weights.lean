import ReplicaRing.Decimal.Reading
import ReplicaRing.Error
import ReplicaRing.Text.Blank
import ReplicaRing.Text.Lines
import Std.Data.ExtTreeMap

/-!
# Weights

Nodes own parts of the identifier space in proportion to their weights. A node without a weight of
its own has the default weight. Weights are finite and greater than zero; a document may hold
others, so what is read from one is checked with `defect?`.

In the line format each line gives the weight of one node. Blanks around the two words, empty lines
and everything from a `#` on do not count, and of several lines for one node the last one holds.
-/

namespace ReplicaRing

/-- The weights of nodes. -/
structure Weights where
  default : Float
  own : Std.ExtTreeMap NodeId Float

namespace Weights

/-- Every node has weight 1. -/
def uniform : Weights :=
  ⟨1.0, ∅⟩

def get (w : Weights) (id : NodeId) : Float :=
  (w.own[id]?).getD w.default

/-- Refuses what cannot be a weight; `name` says whose weight it would be. -/
def check (name : String) (weight : Float) : Except ConfigDefect Unit :=
  if Binary64.isPositive weight then .ok () else .error (.weight name weight)

/-- Gives a node a weight of its own. -/
def set (w : Weights) (id : NodeId) (weight : Float) : Except ConfigDefect Weights :=
  (check id weight).map fun _ => ⟨w.default, w.own.insert id weight⟩

def setDefault (w : Weights) (weight : Float) : Except ConfigDefect Weights :=
  (check "default" weight).map fun _ => ⟨weight, w.own⟩

/-- Checks the default weight, then the weight of every node in the order of their ids. -/
def validate (w : Weights) : Except ConfigDefect Unit :=
  (check "default" w.default).bind fun _ => w.own.toList.forM fun (id, weight) => check id weight

/-- Whether the defaults and all weights of single nodes are equal, as doubles compare. -/
def same (w v : Weights) : Bool :=
  w.default == v.default && w.own.toList == v.own.toList

/-! ### The line format -/

/-- The node and the weight on a line, if the line gives one. -/
def readLine (line : List Char) : Except LineFault (Option (NodeId × Float)) :=
  match Text.words (Text.beforeComment line) with
  | [] => .ok none
  | [id, weight] =>
    match Decimal.read? weight with
    | some weight => .ok (some (String.ofList id, weight))
    | none => .error .notANumber
  | _ => .error .notTwoWords

def addLine (w : Weights) (line : List Char) : Except LineFault Weights :=
  match readLine line with
  | .error fault => .error fault
  | .ok none => .ok w
  | .ok (some (id, weight)) => (w.set id weight).mapError .config

/-- The weights with what several lines say, of which the first has the number `number`. -/
def addLines (w : Weights) (number : Nat) : List (List Char) → Except ParseFault Weights
  | [] => .ok w
  | line :: rest =>
    match w.addLine line with
    | .ok next => next.addLines (number + 1) rest
    | .error fault => .error (.line number fault)

def ofLines (text : List Char) : Except ParseFault Weights :=
  uniform.addLines 1 (Text.lines text)

end Weights

end ReplicaRing
