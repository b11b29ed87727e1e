import ReplicaRing.Error

/-!
# Regions between two coordinates
-/

namespace ReplicaRing.Region

/-- The region from one coordinate to another, both included. -/
def between (first last : UInt64) : Except RingDefect Region :=
  if h : first ≤ last then
    .ok ⟨first.toNat, last.toNat, UInt64.le_iff_toNat_le.1 h, last.toNat_lt⟩
  else .error (.reversedRegion first.toNat last.toNat)

end ReplicaRing.Region
