import ReplicaRing.Decimal.Layout
import ReplicaRing.Json.Record
import ReplicaRing.Weights

/-!
# Weights as documents

A document may leave out the default weight or the weights of single nodes. It may hold numbers that
cannot be weights; reading does not look at that.
-/

namespace ReplicaRing

/-- A double as JSON, which has no number for what is not finite. -/
def Json.ofDouble (x : Float) : Json :=
  if x.isFinite then .number (Decimal.documentLayout.render x).toList else .null

namespace Weights

def document (w : Weights) : Json :=
  .ofFields [("default_weight", .ofDouble w.default),
    ("weights", .ofFields (w.own.toList.map fun (id, weight) => (id, .ofDouble weight)))]

/-- Reads the weights of single nodes; of several for one node the last holds. -/
def ownOfDocument? (json : Json) : Option (Std.ExtTreeMap NodeId Float) := do
  let weights ← (← json.members?).mapM fun (id, value) => value.double?.map (id, ·)
  return .ofList weights

def ofDocument? (json : Json) : Option Weights := do
  match ← json.record? ["default_weight", "weights"] with
  | [default, own] =>
    return ⟨← Json.orDefault? 1.0 Json.double? default, ← Json.orDefault? ∅ ownOfDocument? own⟩
  | _ => none

end Weights

end ReplicaRing
