import ReplicaRing.Error

/-!
# Checked moves and comparisons

Moves between phases and comparisons of versions that are refused with an error where they make no
sense.
-/

namespace ReplicaRing

/-- Refuses a move that a participant may not make. -/
def Phase.checkMove (source target : Phase) : Except Error Unit :=
  if source.canMove target then .ok () else .error (.invalidTransition source target)

def RingVersion.order (a b : RingVersion) : Except Error Ordering :=
  match a.compare? b with
  | some order => .ok order
  | none => .error (.incomparable a b)

end ReplicaRing
