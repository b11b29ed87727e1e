import ReplicaRing.Proofs.Trackers.Resuming
import ReplicaRing.Proofs.Trackers.Schedules
import ReplicaRing.Proofs.Trackers.Waiting

/-!
# Restarts

A tracker may be dropped at any moment, with all calls in flight, and a new one made over its store.
`PhaseStore.life` follows a schedule of calls, steps and restarts; a call that recovers may come at
any time after a restart, or never. What is stored for a pair goes through the phases all the same:
it is replaced only by a phase to which it may move, until its ring is forgotten
(`PhaseStore.goesOn_until_deleted`). So nobody comes back to the first phase, and nobody leaves a
final one.

This asks two things of the calls (`Session.Orderly`). The forgetting of a ring must not be
disturbed, which is no condition where calls are made one at a time (`Session.orderly_of_alone`).
And after a restart, until a call has recovered what is stored, no pair may be begun that is stored
but not tracked: its record would be overwritten (`Tracker.overwritten`).
-/

namespace ReplicaRing

/-! ### Schedules with restarts -/

namespace Session

/-- What happens to a tracker and its store. -/
inductive Incident
  | event (event : History.Event)
  /-- The tracker is dropped, and a new one is made over its store. -/
  | restart

def endure (s : Session) : Incident → Session
  | .event event => s.after event
  | .restart => .of (.onStore s.tracker.store)

/-- A step as it should be: at a reply that the store may give, by a call that knows of what is
stored if it begins a pair, and without disturbing the forgetting of a ring. -/
structure Orderly (s : Session) (n : Nat) (reply : Reply) (a : Activity) : Prop where
  honest : s.tracker.store.MayAnswer a.request? reply
  /-- Nothing is asked of those who begin a pair once what is stored has been recovered. -/
  aware : s.Recovered ∨ a.Aware s.tracker
  calm : s.Undisturbed (s.after (.move n reply))

/-- Whether an incident is a step as it should be. Calls may be made and trackers restarted at any
time. -/
def Permits (s : Session) : Incident → Prop
  | .event (.move n reply) => ∀ a ∈ s.activities[n]?, s.Orderly n reply a
  | _ => True

instance (s : Session) (n : Nat) (reply : Reply) (a : Activity) :
    Decidable (s.Orderly n reply a) :=
  decidable_of_iff (s.tracker.store.MayAnswer a.request? reply ∧
      (s.Recovered ∨ a.Aware s.tracker) ∧ s.Undisturbed (s.after (.move n reply)))
    ⟨fun ⟨honest, aware, calm⟩ => ⟨honest, aware, calm⟩, fun ⟨honest, aware, calm⟩ =>
      ⟨honest, aware, calm⟩⟩

instance (s : Session) (incident : Incident) : Decidable (s.Permits incident) :=
  match incident with
  | .event (.move n reply) =>
    inferInstanceAs (Decidable (∀ a ∈ s.activities[n]?, s.Orderly n reply a))
  | .event (.start _) => isTrue trivial
  | .restart => isTrue trivial

/-- Whether in an incident the records of a ring are deleted for a call that forgets it. -/
def Deletes (s : Session) (ring : RingVersion) (incident : Incident) : Prop :=
  ∃ n locked, incident = .event (.move n .done) ∧
    s.activities[n]? = some (.deleting ring locked)

variable {s : Session} {n : Nat} {reply : Reply} {asleep : Participation → Bool}

/-- A move changes nothing, or it is a step of its call. -/
theorem endure_move_cases (s : Session) (n : Nat) (reply : Reply) :
    s.endure (.event (.move n reply)) = s ∨
      ∃ a t next, s.activities[n]? = some a ∧ a.Moves n s.tracker reply t next ∧
        s.endure (.event (.move n reply)) = ⟨t, s.activities.set n next⟩ := by
  cases hstep : s.step? n reply with
  | none =>
    left
    simp [endure, after, hstep]
  | some s' =>
    right
    obtain ⟨a, ha, hnext⟩ := Option.bind_eq_some_iff.1 hstep
    obtain ⟨⟨t, next⟩, hmoves, rfl⟩ := Option.map_eq_some_iff.1 hnext
    exact ⟨a, t, next, ha, Activity.moves_of_step? hmoves, by simp [endure, after, hstep]⟩

/-- What is permitted keeps a session waking. -/
theorem Waking.endure (hs : s.Waking asleep) {incident : Incident} (h : s.Permits incident) :
    ∃ asleep', (s.endure incident).Waking asleep' := by
  cases incident with
  | restart => exact ⟨_, waking_of_onStore s.tracker.store⟩
  | event event =>
    cases event with
    | start call => exact ⟨_, hs.start call⟩
    | move n reply =>
      rcases s.endure_move_cases n reply with heq | ⟨a, t, next, hn, hmoves, heq⟩
      · rw [heq]
        exact ⟨_, hs⟩
      · have horderly : s.Orderly n reply a := h a hn
        have hcalm : s.Undisturbed ⟨t, s.activities.set n next⟩ := by
          rw [← heq]
          exact horderly.calm
        -- Once a call has recovered, what is stored is tracked.
        have haware : a.Aware s.tracker := by
          rcases horderly.aware with hrecovered | haware
          · exact (hs.coherent_of_recovered hrecovered).aware a
          · exact haware
        rw [heq]
        exact hs.of_moves hn horderly.honest hmoves hcalm haware

/-- What is stored for a pair goes on in every incident but the deletion of its ring. -/
theorem Waking.goesOn (hs : s.Waking asleep) (incident : Incident) (pair : Participation) :
    s.tracker.store.GoesOn pair (s.endure incident).tracker.store ∨
      s.Deletes pair.ring incident ∧ (s.endure incident).tracker.store.phase? pair = none := by
  cases incident with
  | restart => exact Or.inl (Or.inl rfl)
  | event event =>
    cases event with
    | start call => exact Or.inl (Or.inl rfl)
    | move n reply =>
      rcases s.endure_move_cases n reply with heq | ⟨a, t, next, hn, hmoves, heq⟩
      · rw [heq]
        exact Or.inl (Or.inl rfl)
      · rw [heq]
        rcases hs.goesOn_of_moves hn hmoves pair with hgoes | ⟨locked, rfl, rfl, hnone⟩
        · exact Or.inl hgoes
        · exact Or.inr ⟨⟨n, locked, rfl, hn⟩, hnone⟩

/-! ### Calls made one at a time -/

/-- A step disturbs no forgetting while all other calls are finished. So where calls are made one at
a time, it is as it should be if it is honest and aware. -/
theorem orderly_of_alone {a : Activity} (hn : s.activities[n]? = some a)
    (halone : ∀ (m : Nat) (b : Activity), s.activities[m]? = some b → m ≠ n →
      ∃ outcome, b = .finished outcome)
    (honest : s.tracker.store.MayAnswer a.request? reply)
    (haware : s.Recovered ∨ a.Aware s.tracker) : s.Orderly n reply a := by
  have hother : ∀ b ∈ s.activities, b = a ∨ ∃ outcome, b = .finished outcome := by
    intro b hb
    obtain ⟨m, hm⟩ := List.mem_iff_getElem?.1 hb
    by_cases hmn : m = n
    · rw [hmn, hn] at hm
      exact Or.inl (Option.some.inj hm).symm
    · exact Or.inr (halone m b hm hmn)
  refine ⟨honest, haware, fun b hb ring hring => ?_⟩
  -- Who forgets a ring is the call that takes the step. It neither merges records nor adds cells.
  obtain rfl : b = a := by
    rcases hother b hb with heq | ⟨outcome, rfl⟩
    · exact heq
    · cases hring
  have hpending : b.pending = [] := by
    cases b with
    | merging | adopting => cases hring
    | _ => rfl
  constructor
  · intro d hd r hr
    rcases hother d hd with rfl | ⟨outcome, rfl⟩
    · rw [hpending] at hr
      cases hr
    · cases hr
  · have hlength : (s.after (.move n reply)).tracker.cells.length ≤ s.tracker.cells.length := by
      rcases s.endure_move_cases n reply with heq | ⟨a, t, next, ha, hmoves, heq⟩
      · exact Nat.le_of_eq (congrArg (fun s => s.tracker.cells.length) heq)
      · obtain rfl := Option.some.inj (ha.symm.trans hn)
        refine Nat.le_trans (Nat.le_of_eq (congrArg (fun s => s.tracker.cells.length) heq)) ?_
        rcases hmoves.cells with ⟨f, hcells, -⟩ | ⟨cell, -, -, rfl | ⟨_, _, _, rfl, -⟩⟩
        · exact Tracker.length_le_of_cells hcells
        · cases hring
        · cases hring
    intro c hc
    rw [List.drop_eq_nil_of_le hlength] at hc
    cases hc

end Session

/-! ### The life of a store -/

namespace PhaseStore

open Session

/-- The session that a schedule with restarts leads to by a moment, from a tracker that is made over
a store. -/
def life (store : PhaseStore) (incidents : Nat → Incident) : Nat → Session
  | 0 => .of (.onStore store)
  | i + 1 => (store.life incidents i).endure (incidents i)

/-- What a schedule with restarts makes of a store by a moment. -/
def later (store : PhaseStore) (incidents : Nat → Incident) (i : Nat) : PhaseStore :=
  (store.life incidents i).tracker.store

variable {store : PhaseStore} {incidents : Nat → Incident}

theorem waking_life (hpermits : ∀ i, (store.life incidents i).Permits (incidents i)) (i : Nat) :
    ∃ asleep, (store.life incidents i).Waking asleep := by
  induction i with
  | zero => exact ⟨_, waking_of_onStore store⟩
  | succ i ih =>
    obtain ⟨asleep, hs⟩ := ih
    exact hs.endure (hpermits i)

/-- However often the tracker is restarted:

* from one moment to the next the record of a pair stays, or is replaced by one to whose phase it may
  move; the first one is initial, and only the deletion of the ring removes it;
* until the ring is deleted, a phase that was stored once leads on to all that are stored later. A
  pair does not come back to the first phase, and stays in a final one.
-/
theorem goesOn_until_deleted (hpermits : ∀ i, (store.life incidents i).Permits (incidents i))
    (pair : Participation) :
    (∀ i, (store.later incidents i).GoesOn pair (store.later incidents (i + 1)) ∨
      (store.life incidents i).Deletes pair.ring (incidents i) ∧
        (store.later incidents (i + 1)).phase? pair = none) ∧
    ∀ i j p, i ≤ j → (store.later incidents i).phase? pair = some p →
      (∀ k, i ≤ k → k < j → ¬ (store.life incidents k).Deletes pair.ring (incidents k)) →
        ∃ q, (store.later incidents j).phase? pair = some q ∧ p.Reaches q ∧
          (p ≠ .initial → q ≠ .initial) ∧ (p.isFinal = true → q = p) := by
  have hgoes : ∀ i, (store.later incidents i).GoesOn pair (store.later incidents (i + 1)) ∨
      (store.life incidents i).Deletes pair.ring (incidents i) ∧
        (store.later incidents (i + 1)).phase? pair = none := by
    intro i
    obtain ⟨asleep, hs⟩ := waking_life hpermits i
    exact hs.goesOn (incidents i) pair
  refine ⟨hgoes, fun i j p hij hp hkept => ?_⟩
  have hreached : ∃ q, (store.later incidents j).phase? pair = some q ∧ p.Reaches q := by
    -- On the later moment. Nothing has deleted the record, so each step leads it on.
    induction hij with
    | refl => exact ⟨p, hp, .refl⟩
    | @step j hij ih =>
      obtain ⟨q, hq, hreaches⟩ := ih fun k hik hkj => hkept k hik (Nat.lt_succ_of_lt hkj)
      have hon := (hgoes j).resolve_right fun hdeleted =>
        hkept j hij (Nat.lt_succ_self j) hdeleted.1
      obtain ⟨q', hq', hfurther⟩ := hon.reaches hq
      exact ⟨q', hq', hreaches.trans hfurther⟩
  obtain ⟨q, hq, hreaches⟩ := hreached
  exact ⟨q, hq, hreaches, Phase.ne_initial_of_reaches hreaches,
    fun hfinal => Phase.eq_of_reaches_of_isFinal hfinal hreaches⟩

/-! A stored phase is recovered, its pair gives up, and the tracker is restarted. Before the next
recovery another pair is begun, and a transition is refused; after it the first pair is begun again,
and then the ring is forgotten. -/

def oneStored : PhaseStore :=
  empty.save ⟨History.trackedPair, .ready2⟩

def restarted : List Incident :=
  [.event (.start .recover), .event (.move 0 (.loaded [⟨History.trackedPair, .ready2⟩])),
    .event (.move 0 .done), .event (.move 0 .done), .event (.start (.begin History.trackedPair)),
    .event (.move 1 .done), .event (.move 1 .done), .event (.move 1 .done),
    .event (.start (.transition History.trackedPair .abandoned)), .event (.move 2 .done),
    .event (.move 2 .done), .event (.move 2 .done), .event (.move 2 .done), .restart,
    .event (.start (.begin History.newPair)), .event (.move 0 .done), .event (.move 0 .done),
    .event (.start (.transition History.trackedPair .closed)), .event (.move 1 .done),
    .event (.start .recover), .event (.move 2 (.loaded
      [⟨History.newPair, .initial⟩, ⟨History.trackedPair, .abandoned⟩])),
    .event (.move 2 .done), .event (.move 2 .done), .event (.move 2 .done), .event (.move 2 .done),
    .event (.start (.begin History.trackedPair)), .event (.move 3 .done), .event (.move 3 .done),
    .event (.move 3 .done), .event (.start (.forget History.trackedPair.ring)),
    .event (.move 4 .done), .event (.move 4 .done), .event (.move 4 .done), .event (.move 4 .done),
    .event (.move 4 .done), .event (.move 4 .done)]

/-- The schedule that ends in one restart after the other. -/
def restarts (i : Nat) : Incident :=
  restarted[i]?.getD .restart

theorem goesOn_until_deleted_restarted :
    (∀ i, (oneStored.life restarts i).Permits (restarts i)) ∧
      (oneStored.later restarts 0).phase? History.trackedPair = some .ready2 ∧
      (oneStored.life restarts 29).outcome? 1 = some (.failed
        (.pairNotFound History.trackedPair.ring "s1")) ∧
      (oneStored.life restarts 29).outcome? 3 = some (.begun .abandoned) ∧
      (∃ q, (oneStored.later restarts 29).phase? History.trackedPair = some q ∧
        Phase.ready2.Reaches q ∧ q ≠ .initial ∧ q = .abandoned) ∧
      (oneStored.later restarts 36).phase? History.trackedPair = none := by
  have hpermits : ∀ i, (oneStored.life restarts i).Permits (restarts i) := by
    intro i
    by_cases hi : i < restarted.length
    · have hin : ∀ i < restarted.length, (oneStored.life restarts i).Permits (restarts i) := by
        decide +kernel
      exact hin i hi
    · rw [restarts, List.getElem?_eq_none (Nat.le_of_not_lt hi)]
      trivial
  have hkept : ∀ k < 29,
      ¬ (oneStored.life restarts k).Deletes History.trackedPair.ring (restarts k) := by
    rintro k hk ⟨n, locked, -, hn⟩
    have hforgets : ∀ k < 29, ∀ a ∈ (oneStored.life restarts k).activities,
        a.forgets? = none := by decide +kernel
    cases hforgets k hk _ (List.mem_of_getElem? hn)
  obtain ⟨-, hlater⟩ := goesOn_until_deleted hpermits History.trackedPair
  obtain ⟨q, hq, hreaches, hinitial, -⟩ :=
    hlater 0 29 .ready2 (Nat.zero_le _) rfl fun k _ hk => hkept k hk
  obtain ⟨q', hq', -, -, hfinal⟩ :=
    hlater 13 29 .abandoned (by decide) rfl fun k _ hk => hkept k hk
  obtain rfl := Option.some.inj (hq.symm.trans hq')
  exact ⟨hpermits, rfl, rfl, rfl, ⟨q, hq, hreaches, hinitial (by decide), hfinal rfl⟩, rfl⟩

end PhaseStore

/-- A pair that is begun after a restart, before it has been recovered, is stored in the first phase
again, though it had given up. -/
theorem Tracker.overwritten : ∃ t₁ t₂ t₃ : Tracker,
    (onStore .empty).perform (fun _ => none) (.begin History.newPair) =
      some (t₁, .begun .initial) ∧
    t₁.perform (fun _ => none) (.transition History.newPair .abandoned) = some (t₂, .moved) ∧
    t₂.store.phase? History.newPair = some .abandoned ∧
    (onStore t₂.store).perform (fun _ => none) (.begin History.newPair) =
      some (t₃, .begun .initial) ∧
    t₃.store.phase? History.newPair = some .initial :=
  ⟨_, _, _, rfl, rfl, rfl, rfl, rfl⟩

end ReplicaRing
