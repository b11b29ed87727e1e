/-!
# Sums of natural numbers

Coordinates and units are counted with natural numbers, and counts are added up by `sumOf`.
-/

namespace ReplicaRing

/-- The sum of a list of natural numbers. -/
def sumOf : List Nat → Nat
  | [] => 0
  | n :: rest => n + sumOf rest

@[simp] theorem sumOf_nil : sumOf [] = 0 :=
  rfl

@[simp] theorem sumOf_cons (n : Nat) (rest : List Nat) : sumOf (n :: rest) = n + sumOf rest :=
  rfl

@[simp] theorem sumOf_append (ms ns : List Nat) : sumOf (ms ++ ns) = sumOf ms + sumOf ns := by
  induction ms with
  | nil => simp
  | cons m ms ih => simp [ih, Nat.add_assoc]

end ReplicaRing
