import ReplicaRing.Proofs.Placement.Resumption

/-!
# Placements that are repeated

A ring that was placed is a fixed point of its placement (`PlacementRequest.place_again`). Starting
from the ring, an attempt for the same request gives the ring back, at every tolerance that it
passes; so does a placement, with the tolerance that it found before. It does not matter how the
ring came about: freshly, out of an earlier ring, or at the end of a chain of placements for other
requests, each of which started from the ring of the one before.
-/

namespace ReplicaRing.PlacementRequest

/-- Placements one after the other, each starting from the ring of the one before. -/
def placeAll (prior : Option Ring) :
    List (PlacementRequest × BuildConfig) → Except Error (Option Ring)
  | [] => .ok prior
  | (q, config) :: rest =>
    match q.place prior config with
    | .ok r => placeAll (some r) rest
    | .error e => .error e

theorem placeAll_cons_eq_ok {q : PlacementRequest} {config : BuildConfig} {prior last : Option Ring}
    {rest : List (PlacementRequest × BuildConfig)} :
    placeAll prior ((q, config) :: rest) = .ok last ↔
      ∃ r, q.place prior config = .ok r ∧ placeAll (some r) rest = .ok last := by
  rw [placeAll]
  cases q.place prior config <;> simp

theorem placeAll_append_eq_ok {prior last : Option Ring}
    {chain rest : List (PlacementRequest × BuildConfig)} :
    placeAll prior (chain ++ rest) = .ok last ↔
      ∃ middle, placeAll prior chain = .ok middle ∧ placeAll middle rest = .ok last := by
  induction chain generalizing prior with
  | nil => simp [placeAll]
  | cons step chain ih =>
    obtain ⟨q, config⟩ := step
    simp only [List.cons_append, placeAll_cons_eq_ok, ih]
    constructor
    · rintro ⟨r, hr, middle, hchain, hrest⟩
      exact ⟨middle, ⟨r, hr, hchain⟩, hrest⟩
    · rintro ⟨middle, ⟨r, hr, hchain⟩, hrest⟩
      exact ⟨r, hr, middle, hchain, hrest⟩

/-- A placement that gives the ring it starts from can be repeated any number of times. -/
theorem placeAll_replicate {q : PlacementRequest} {config : BuildConfig} {r : Ring}
    (h : q.place (some r) config = .ok r) (n : Nat) :
    placeAll (some r) (List.replicate n (q, config)) = .ok (some r) := by
  induction n with
  | zero => rfl
  | succ n ih =>
    rw [List.replicate_succ, placeAll_cons_eq_ok]
    exact ⟨r, h, ih⟩

/-- Placing the same again, starting from the ring that came out, changes nothing, whatever ring the
first placement started from. An attempt at another tolerance gives the ring with that tolerance, if
it succeeds; a placement gives the very ring; and so does the last placement of a chain, however
often it is repeated. -/
theorem place_again {q : PlacementRequest} (hids : q.memberIds.Nodup) :
    (∀ prior tolerance other r r', q.attempt prior tolerance = .ok r →
      q.attempt (some r) other = .ok r' → r' = { r with tolerance := other }) ∧
    (∀ prior config r, q.place prior config = .ok r → q.place (some r) config = .ok r) ∧
    ∀ prior chain config r, placeAll prior (chain ++ [(q, config)]) = .ok (some r) →
      ∀ n, placeAll prior (chain ++ List.replicate (n + 1) (q, config)) = .ok (some r) := by
  refine ⟨fun _ _ _ _ _ h h' => attempt_again hids h h', fun _ _ _ h => place_self hids h, ?_⟩
  intro prior chain config r h n
  obtain ⟨middle, hchain, hlast⟩ := placeAll_append_eq_ok.1 h
  obtain ⟨r', hplace, hr'⟩ := placeAll_cons_eq_ok.1 hlast
  obtain rfl : r' = r := Option.some.inj (Except.ok.inj hr')
  have hagain : placeAll (some r') (List.replicate n (q, config)) = .ok (some r') :=
    placeAll_replicate (place_self hids hplace) n
  apply placeAll_append_eq_ok.2
  refine ⟨middle, hchain, ?_⟩
  rw [List.replicate_succ, placeAll_cons_eq_ok]
  exact ⟨r', hplace, hagain⟩

/-- The four members after one of them has left. -/
def threeMembers : PlacementRequest :=
  { fourMembers with members := [⟨"a", 1.0⟩, ⟨"b", 1.0⟩, ⟨"d", 1.0⟩] }

/-- A schedule that starts coarse enough for ten coordinates. -/
def coarseSchedule : BuildConfig :=
  { BuildConfig.standard with initialTolerance := 0.25 }

theorem place_again_threeMembers :
    threeMembers.memberIds.Nodup ∧
      (∃ r r', threeMembers.attempt (some fourMembersPrior) 0.5 = .ok r ∧
        threeMembers.attempt (some r) 0.25 = .ok r' ∧ r' = { r with tolerance := 0.25 }) ∧
      ∃ r, placeAll none ([(fourMembers, coarseSchedule)] ++ [(threeMembers, coarseSchedule)]) =
          .ok (some r) ∧
        placeAll none ([(fourMembers, coarseSchedule)] ++
          List.replicate 3 (threeMembers, coarseSchedule)) = .ok (some r) := by
  have hids : threeMembers.memberIds.Nodup := by decide
  obtain ⟨hattempts, -, hchains⟩ := place_again hids
  refine ⟨hids, ?_, ?_⟩
  · have hok : (threeMembers.attempt (some fourMembersPrior) 0.5).toOption.any (fun r =>
        (threeMembers.attempt (some r) 0.25).toOption.isSome) = true := by
      decide +kernel
    obtain ⟨r, hr, hsome⟩ := (Option.any_eq_true _ _).1 hok
    obtain ⟨r', hr'⟩ := Option.isSome_iff_exists.1 hsome
    rw [toOption_eq_some] at hr hr'
    exact ⟨r, r', hr, hr', hattempts _ _ _ r r' hr hr'⟩
  · have hok : ((placeAll none
        ([(fourMembers, coarseSchedule)] ++ [(threeMembers, coarseSchedule)])).toOption.any
          Option.isSome) = true := by
      decide +kernel
    obtain ⟨last, hlast, hsome⟩ := (Option.any_eq_true _ _).1 hok
    obtain ⟨r, rfl⟩ := Option.isSome_iff_exists.1 hsome
    rw [toOption_eq_some] at hlast
    exact ⟨r, hlast, hchains none _ _ r hlast 2⟩

end ReplicaRing.PlacementRequest
