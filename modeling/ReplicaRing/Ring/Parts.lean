import ReplicaRing.Ring

/-!
# Parts of a ring

A ring taken apart is plain data. Putting it together again checks that the entries tile the region,
that they are merged and that each has its primary owners; the parts of a ring pass the check.
-/

namespace ReplicaRing

/-- What a ring consists of, whether or not it assigns every coordinate. -/
structure Ring.Parts where
  node : NodeId
  policy : String
  region : Region
  primaryReplicas : Nat
  secondaryReplicas : Nat
  tolerance : Float
  entries : List Entry

def Ring.parts (r : Ring) : Ring.Parts :=
  ⟨r.node, r.policy, r.region, r.primaryReplicas, r.secondaryReplicas, r.tolerance,
    r.entries.toList⟩

/-- The ring made of its parts, which have to be in their canonical form. -/
def Ring.ofParts? (p : Ring.Parts) : Option Ring :=
  if h : Run.Tiles p.region p.entries ∧ Run.Merged p.entries ∧ ∀ e ∈ p.entries, e.HasPrimaries then
    some {
      node := p.node
      policy := p.policy
      region := p.region
      primaryReplicas := p.primaryReplicas
      secondaryReplicas := p.secondaryReplicas
      tolerance := p.tolerance
      entries := p.entries.toArray
      tiles := h.1
      merged := h.2.1
      hasPrimaries := h.2.2 }
  else none

theorem Ring.ofParts?_parts (r : Ring) : Ring.ofParts? r.parts = some r :=
  dif_pos ⟨r.tiles, r.merged, r.hasPrimaries⟩

end ReplicaRing
