import ReplicaRing.Proofs.Trackers.Alone

/-!
# Calls one after the other

A tracker recovers what is stored and is then asked one thing after the other, while the store may
refuse any request. Every call takes effect as a whole or fails and changes nothing, and changes
nothing but what it is about (`Tracker.Atomic`), and after every call memory and store agree
(`Tracker.performAll_atomic`).

All of it is read off `PhaseStore.perform`, of which a failed call leaves the store alone
(`PhaseStore.perform_of_failed`) as a call does all pairs that it does not touch
(`PhaseStore.phase?_perform`). That the tracker has recovered first is needed: see
`Tracker.overwritten`.
-/

namespace ReplicaRing

variable {faults : Request → Option String} {call : Call} {pair : Participation} {t t' : Tracker}

/-- Whether a call may change what is kept for a pair. -/
def Call.Touches (pair : Participation) : Call → Prop
  | .begin own | .transition own _ => own = pair
  | .forget ring =>
    pair.ring.ringId = ring.ringId ∧ pair.ring.config = ring.config ∧
      pair.ring.instanceNumber = ring.instanceNumber
  | .phase _ | .lagging .. | .recover => False

/-! ### What a call leaves alone -/

namespace PhaseStore

variable {s : PhaseStore} {refusal : Option String} {success : PhaseStore × Outcome} {e : Error}

theorem attempt_of_failed (hsuccess : ∀ e, success.2 ≠ .failed e)
    (h : (s.attempt refusal success).2 = .failed e) : (s.attempt refusal success).1 = s := by
  cases refusal with
  | some reason => rfl
  | none => exact absurd h (hsuccess e)

theorem phase?_attempt (h : success.1.phase? pair = s.phase? pair) :
    (s.attempt refusal success).1.phase? pair = s.phase? pair := by
  cases refusal with
  | some reason => rfl
  | none => exact h

theorem phase?_save_of_ne {own : Participation} {p : Phase} (h : own ≠ pair) :
    (s.save ⟨own, p⟩).phase? pair = s.phase? pair := by
  rw [phase?_save, if_neg h]

/-- A transition moves its pair if it may, and fails otherwise. -/
theorem perform_transition (s : PhaseStore) (faults : Request → Option String)
    (pair : Participation) (target : Phase) :
    (∃ p, s.phase? pair = some p ∧ p.canMove target = true ∧
        faults (.save ⟨pair, target⟩) = none) ∧
      s.perform faults (.transition pair target) = (s.save ⟨pair, target⟩, .moved) ∨
    (¬ ∃ p, s.phase? pair = some p ∧ p.canMove target = true ∧
        faults (.save ⟨pair, target⟩) = none) ∧
      ∃ e, s.perform faults (.transition pair target) = (s, .failed e) := by
  cases hphase : s.phase? pair with
  | none => simp [perform, hphase]
  | some p =>
    cases hmove : p.canMove target with
    | false => simp [perform, hphase, hmove]
    | true =>
      cases hfault : faults (.save ⟨pair, target⟩) with
      | none => simp [perform, attempt, hphase, hmove, hfault]
      | some reason => simp [perform, attempt, hphase, hmove, hfault]

/-- A call that fails leaves the store as it is. -/
theorem perform_of_failed (h : (s.perform faults call).2 = .failed e) :
    (s.perform faults call).1 = s := by
  cases call with
  | begin own =>
    cases hphase : s.phase? own with
    | some p => simp only [perform, hphase]
    | none =>
      simp only [perform, hphase] at h ⊢
      exact attempt_of_failed (by simp) h
  | transition own target =>
    rcases s.perform_transition faults own target with ⟨-, heq⟩ | ⟨-, e, heq⟩
    · rw [heq] at h
      cases h
    · rw [heq]
  | forget ring => exact attempt_of_failed (by simp) h
  | recover => exact attempt_of_failed (by simp) h
  | phase | lagging => rfl

/-- A call leaves alone what is stored for the pairs that it does not touch. -/
theorem phase?_perform (h : ¬ call.Touches pair) :
    (s.perform faults call).1.phase? pair = s.phase? pair := by
  cases call with
  | begin own =>
    cases hphase : s.phase? own with
    | some p => simp only [perform, hphase]
    | none =>
      simp only [perform, hphase]
      exact phase?_attempt (phase?_save_of_ne h)
  | transition own target =>
    rcases s.perform_transition faults own target with ⟨-, heq⟩ | ⟨-, e, heq⟩
    · rw [heq]
      exact phase?_save_of_ne h
    · rw [heq]
  | forget ring =>
    have hring : pair.ring ≠ ring := by
      rintro rfl
      exact h ⟨rfl, rfl, rfl⟩
    exact phase?_attempt ((s.phase?_eraseRing ..).trans (if_neg hring))
  | recover => exact phase?_attempt rfl
  | phase | lagging => rfl

end PhaseStore

/-! ### Calls in a sequence -/

namespace Tracker

/-- Makes calls one after the other. With each of them come the reasons for which the store refuses
requests meanwhile. -/
def performAll (t : Tracker) (calls : List ((Request → Option String) × Call)) : Option Tracker :=
  calls.foldlM (fun t (faults, call) => (t.perform faults call).map Prod.fst) t

/-- What a call makes of a tracker that is in step with its store, and what it comes to. -/
structure Atomic (t : Tracker) (faults : Request → Option String) (call : Call) (t' : Tracker)
    (outcome : Outcome) : Prop where
  /-- What is tracked is what is stored, in the same phase. -/
  same : ∀ pair, t'.held? pair = t'.store.phase? pair
  /-- The call takes effect as if it were one step. -/
  whole : (t'.store, outcome) = t.store.perform faults call
  /-- A call that fails changes nothing. -/
  failed : ∀ e, outcome = .failed e →
    (∀ pair, t'.held? pair = t.held? pair) ∧ t'.store = t.store
  /-- Pairs that the call does not touch stay as they are. -/
  framed : ∀ pair, ¬ call.Touches pair →
    t'.held? pair = t.held? pair ∧ t'.store.phase? pair = t.store.phase? pair
  answered : ∀ pair target, call = .transition pair target →
    outcome = .moved ∨ ∃ e, outcome = .failed e
  /-- A transition succeeds if the pair is tracked, the move is allowed and it could be saved. -/
  moved : ∀ pair target, call = .transition pair target →
    (outcome = .moved ↔ ∃ p, t.held? pair = some p ∧ p.canMove target = true ∧
      faults (.save ⟨pair, target⟩) = none)

theorem InStep.atomic (ht : t.InStep) (faults : Request → Option String) (call : Call) :
    ∃ t' outcome, t.perform faults call = some (t', outcome) ∧ t'.InStep ∧
      t.Atomic faults call t' outcome := by
  obtain ⟨t', hperform, hstore, ht'⟩ := ht.perform_eq faults call
  have hheld : ∀ pair, t'.store.phase? pair = t.store.phase? pair →
      t'.held? pair = t.held? pair := by
    intro pair hpair
    rw [ht'.same, hpair, ht.same]
  refine ⟨t', _, hperform, ht', ht'.same, by rw [hstore], fun e he => ?_, fun pair hpair => ?_,
    ?_, ?_⟩
  · have hsame : t'.store = t.store := hstore.trans (PhaseStore.perform_of_failed he)
    exact ⟨fun pair => hheld pair (by rw [hsame]), hsame⟩
  · have hsame : t'.store.phase? pair = t.store.phase? pair := by
      rw [hstore, PhaseStore.phase?_perform hpair]
    exact ⟨hheld pair hsame, hsame⟩
  · rintro pair target rfl
    rcases t.store.perform_transition faults pair target with ⟨-, heq⟩ | ⟨-, e, heq⟩
    · exact Or.inl (by rw [heq])
    · exact Or.inr ⟨e, by rw [heq]⟩
  · rintro pair target rfl
    rw [ht.same]
    rcases t.store.perform_transition faults pair target with ⟨hmay, heq⟩ | ⟨hmay, e, heq⟩
    · simp [heq, hmay]
    · simp [heq, hmay]

theorem InStep.performAll (ht : t.InStep) (calls : List ((Request → Option String) × Call)) :
    ∃ t', t.performAll calls = some t' ∧ t'.InStep := by
  induction calls generalizing t with
  | nil => exact ⟨t, rfl, ht⟩
  | cons made calls ih =>
    obtain ⟨faults, call⟩ := made
    obtain ⟨t₁, outcome, hperform, ht₁, -⟩ := ht.atomic faults call
    obtain ⟨t', hall, ht'⟩ := ih ht₁
    refine ⟨t', ?_, ht'⟩
    simp only [Tracker.performAll, List.foldlM_cons, hperform]
    exact hall

/-- A tracker recovers what is stored, whatever it is, and takes calls one after the other, while the
store refuses what it likes. Memory and store agree after all of them. The next call, whatever it is,
comes to its end, takes effect as a whole or fails without any, and leaves alone what it does not
touch. -/
theorem performAll_atomic (store : PhaseStore) (hload : faults .load = none)
    (calls : List ((Request → Option String) × Call)) :
    ∃ t₀ t, (onStore store).perform faults .recover = some (t₀, .recovered store.records.length) ∧
      t₀.store = store ∧ t₀.performAll calls = some t ∧
      (∀ pair, t.held? pair = t.store.phase? pair) ∧
      ∀ faults call, ∃ t' outcome, t.perform faults call = some (t', outcome) ∧
        t.Atomic faults call t' outcome := by
  obtain ⟨t₀, hrecover, hstore, ht₀⟩ := exists_recovered store hload
  obtain ⟨t, hall, ht⟩ := ht₀.performAll calls
  refine ⟨t₀, t, hrecover, hstore, hall, ht.same, fun faults call => ?_⟩
  obtain ⟨t', outcome, hperform, -, hatomic⟩ := ht.atomic faults call
  exact ⟨t', outcome, hperform, hatomic⟩

/-! What is stored is recovered. Another pair is begun, at first in vain; both are moved, and where
the store refuses or the move is not allowed nothing happens. -/

def refusing (request : Request) : Request → Option String :=
  fun r => if r = request then some "out of order" else none

def faultyCalls : List ((Request → Option String) × Call) :=
  [(refusing (.save ⟨History.newPair, .initial⟩), .begin History.newPair),
    (refusing .load, .begin History.newPair),
    (refusing (.save ⟨History.trackedPair, .localComplete1⟩),
      .transition History.trackedPair .localComplete1),
    (refusing .load, .transition History.trackedPair .localComplete1),
    (refusing .load, .transition History.newPair .initial),
    (refusing .load, .recover),
    (refusing (.delete History.newPair.ring), .forget History.newPair.ring)]

theorem performAll_atomic_faultyCalls :
    refusing (.delete History.newPair.ring) .load = none ∧
    ∃ t₀ t, (onStore .oneStored).perform (refusing (.delete History.newPair.ring)) .recover =
        some (t₀, .recovered 1) ∧
      t₀.performAll faultyCalls = some t ∧ (∀ pair, t.held? pair = t.store.phase? pair) ∧
      t.held? History.newPair = some .initial ∧
      t.held? History.trackedPair = some .localComplete1 ∧
      ∃ t' outcome, t.perform (refusing .load) (.transition History.trackedPair .closed) =
        some (t', outcome) ∧ outcome ≠ .moved ∧ ∃ e, outcome = .failed e ∧ t'.store = t.store := by
  have hload : refusing (.delete History.newPair.ring) .load = none := rfl
  obtain ⟨t₀, t, hrecover, -, hall, hsame, hnext⟩ := performAll_atomic .oneStored hload faultyCalls
  have hheld : t.held? History.newPair = some .initial ∧
      t.held? History.trackedPair = some .localComplete1 := by
    cases hrecover
    cases hall
    exact ⟨rfl, rfl⟩
  obtain ⟨t', outcome, hperform, hatomic⟩ :=
    hnext (refusing .load) (.transition History.trackedPair .closed)
  have hmoved : outcome ≠ .moved := by
    rw [Ne, hatomic.moved _ _ rfl, hheld.2]
    rintro ⟨_, ⟨⟩, hmove, -⟩
    cases hmove
  obtain ⟨e, he⟩ := (hatomic.answered _ _ rfl).resolve_left hmoved
  exact ⟨hload, t₀, t, hrecover, hall, hsame, hheld.1, hheld.2, t', outcome, hperform, hmoved, e, he,
    (hatomic.failed e he).2⟩

end Tracker

end ReplicaRing
