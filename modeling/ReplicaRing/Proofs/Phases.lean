import ReplicaRing.Convergence.Tracker
import Mathlib.Logic.Relation

/-!
# Going through the phases

Every move leads further on (`Phase.rank_lt_of_canMove`), and so does every phase that a participant
takes over from the store (`Phase.rank_lt_of_adopts`). So nobody takes over a phase from which it
has come itself (`Phase.adopts_eq_false_of_reaches`).

What is taken over is reached by moves as well (`Phase.reaches_of_adopts`), and whatever is reached
by one or more moves is taken over (`Phase.adopts_iff_moves`). Who has reached a required phase
stays there with every move but the one that gives up (`Phase.satisfiedBy_of_reaches`), and nobody
moves on from a final phase (`Phase.eq_of_reaches_of_isFinal`).
-/

namespace ReplicaRing.Phase

/-- How far a phase is on the way to an end. -/
def rank : Phase → Nat
  | initial => 0
  | ready1 => 1
  | ready2 => 2
  | localComplete1 => 3
  | allComplete1 => 4
  | allComplete2 => 5
  | closed => 6
  | abandoned => 7

theorem rank_lt_of_canMove {a b : Phase} (h : a.canMove b = true) : a.rank < b.rank := by
  revert h
  cases a <;> cases b <;> decide

theorem rank_lt_of_adopts {a b : Phase} (h : a.adopts b = true) : a.rank < b.rank := by
  revert h
  cases a <;> cases b <;> decide

/-- A phase reaches those to which some moves lead, none among them. -/
def Reaches : Phase → Phase → Prop :=
  Relation.ReflTransGen fun a b => a.canMove b = true

theorem Reaches.rank_le {a b : Phase} (h : a.Reaches b) : a.rank ≤ b.rank := by
  induction h with
  | refl => exact Nat.le_refl _
  | tail _ hmove ih => exact Nat.le_trans ih (Nat.le_of_lt (rank_lt_of_canMove hmove))

/-- Nobody comes back to the first phase. -/
theorem ne_initial_of_reaches {a b : Phase} (h : a.Reaches b) (ha : a ≠ initial) : b ≠ initial := by
  rintro rfl
  have hrank : a.rank ≤ 0 := h.rank_le
  revert ha hrank
  cases a <;> decide

/-- Nobody takes over a phase from which its own was reached. -/
theorem adopts_eq_false_of_reaches {held stored : Phase} (h : stored.Reaches held) :
    held.adopts stored = false := by
  cases hadopts : held.adopts stored with
  | false => rfl
  | true => exact absurd h.rank_le (Nat.not_le.2 (rank_lt_of_adopts hadopts))

/-! ### Reaching a required phase -/

theorem canMove_of_next? {a b : Phase} (h : a.next? = some b) : a.canMove b = true := by
  revert h
  cases a <;> cases b <;> decide

/-- The phases further along the chain are reached one after the other. -/
theorem reaches_of_mem_chain {n : Nat} {a b : Phase} (h : b ∈ chain n a) : a.Reaches b := by
  induction n generalizing a with
  | zero => simp [chain] at h
  | succ n ih =>
    rcases List.mem_cons.1 h with rfl | hrest
    · exact .refl
    · cases hnext : a.next? with
      | none => simp [hnext] at hrest
      | some next =>
        rw [hnext] at hrest
        exact .head (canMove_of_next? hnext) (ih hrest)

theorem reaches_of_satisfiedBy {required observed : Phase}
    (h : required.satisfiedBy observed = true) : required.Reaches observed :=
  reaches_of_mem_chain (List.contains_iff_mem.1 h)

/-- A phase that is taken over is reached from the one that was held. -/
theorem reaches_of_adopts {held stored : Phase} (h : held.adopts stored = true) :
    held.Reaches stored := by
  unfold adopts at h
  simp only [Bool.and_eq_true, Bool.or_eq_true] at h
  rcases h.2 with hmove | hfurther
  · exact .single hmove
  · exact reaches_of_satisfiedBy hfurther

theorem reaches_of_initial (b : Phase) : initial.Reaches b := by
  by_cases hb : b = initial
  · rw [hb]
    exact .refl
  · exact .single (by simp [canMove, isFinal, hb])

/-- A phase is reached by whoever is there, or has gone as far without giving up. -/
theorem satisfiedBy_iff {required observed : Phase} : required.satisfiedBy observed = true ↔
    required = observed ∨ observed ≠ abandoned ∧ required.rank ≤ observed.rank := by
  cases required <;> cases observed <;> decide

/-- Moves lead away from a required phase only by giving up. -/
theorem satisfiedBy_of_reaches {required a b : Phase} (ha : required.satisfiedBy a = true)
    (h : a.Reaches b) (hb : b ≠ abandoned) : required.satisfiedBy b = true := by
  have hab : a.rank ≤ b.rank := h.rank_le
  have hrequired : required.rank ≤ a.rank := by
    rcases satisfiedBy_iff.1 ha with rfl | ⟨-, hle⟩
    · exact Nat.le_refl _
    · exact hle
  exact satisfiedBy_iff.2 (Or.inr ⟨hb, Nat.le_trans hrequired hab⟩)

/-- There is no move from a final phase. -/
theorem isFinal_eq_false_of_canMove {a b : Phase} (h : a.canMove b = true) : a.isFinal = false := by
  cases ha : a.isFinal with
  | false => rfl
  | true => simp [canMove, ha] at h

theorem isFinal_eq_false_of_moves {a b : Phase}
    (h : Relation.TransGen (fun a b : Phase => a.canMove b = true) a b) : a.isFinal = false := by
  obtain ⟨next, hmove, -⟩ := Relation.TransGen.head'_iff.1 h
  exact isFinal_eq_false_of_canMove hmove

/-- A stored phase is taken over exactly if one or more moves lead to it. -/
theorem adopts_iff_moves {held stored : Phase} : held.adopts stored = true ↔
    Relation.TransGen (fun a b : Phase => a.canMove b = true) held stored := by
  constructor
  · intro h
    rcases Relation.reflTransGen_iff_eq_or_transGen.1 (reaches_of_adopts h) with rfl | hmoves
    · simp [adopts] at h
    · exact hmoves
  · intro h
    -- Who is not at an end takes over whatever is further on.
    have hopen : held.isFinal = false := isFinal_eq_false_of_moves h
    obtain ⟨before, hbefore, hmove⟩ := Relation.TransGen.tail'_iff.1 h
    have hbehind : held.rank < stored.rank :=
      Nat.lt_of_le_of_lt (Reaches.rank_le hbefore) (rank_lt_of_canMove hmove)
    clear h hbefore hmove
    revert hopen hbehind
    cases held <;> cases stored <;> decide

theorem eq_of_reaches_of_isFinal {a b : Phase} (ha : a.isFinal = true) (h : a.Reaches b) :
    b = a := by
  rcases Relation.reflTransGen_iff_eq_or_transGen.1 h with hsame | hmoves
  · exact hsame
  · rw [isFinal_eq_false_of_moves hmoves] at ha
    cases ha

end ReplicaRing.Phase
