import ReplicaRing.Proofs.Trackers.Moves
import Mathlib.Logic.Relation

/-!
# Histories of a tracker

A history is a session with all calls that were made in it and all records that were saved, in their
order. It goes on when a call is made, or when one of the calls in flight takes a step, at a reply
that the store may give: a request takes effect and is answered by `done`, or has no effect and is
refused, and what is loaded are the stored records in some order. Calls and steps may come in any
order, so what holds along all histories holds for every interleaving of any number of calls.
-/

namespace ReplicaRing

theorem getElem?_concat_eq_some {α : Type} {l : List α} {x y : α} {n : Nat}
    (h : (l ++ [x])[n]? = some y) : l[n]? = some y ∨ n = l.length ∧ x = y := by
  by_cases hlt : n < l.length
  · exact Or.inl ((List.getElem?_append_left hlt).symm.trans h)
  · obtain ⟨hn, hget⟩ := List.getElem?_eq_some_iff.1 h
    have hn : n = l.length := by
      rw [List.length_append, List.length_singleton] at hn
      omega
    subst hn
    exact Or.inr ⟨rfl, by simpa using hget⟩

/-- Two lists of one length that are extended together have their last elements at one place. -/
theorem getElem?_concat_eq_some₂ {α β : Type} {xs : List α} {ys : List β} {x x' : α} {y y' : β}
    {n : Nat} (hlength : ys.length = xs.length) (hx : (xs ++ [x])[n]? = some x')
    (hy : (ys ++ [y])[n]? = some y') :
    xs[n]? = some x' ∧ ys[n]? = some y' ∨ n = xs.length ∧ x = x' ∧ y = y' := by
  rcases getElem?_concat_eq_some hx with hx | ⟨hn, rfl⟩
  · have hlt : n < ys.length := hlength ▸ (List.getElem?_eq_some_iff.1 hx).1
    exact Or.inl ⟨hx, (List.getElem?_append_left hlt).symm.trans hy⟩
  · rw [hn, ← hlength, List.getElem?_concat_length] at hy
    exact Or.inr ⟨hn, rfl, Option.some.inj hy⟩

/-- What the store may answer. The reply does not count where nothing is requested. -/
def PhaseStore.MayAnswer (s : PhaseStore) : Option Request → Reply → Prop
  | none, _ => True
  | some _, .refused _ => True
  | some .load, .loaded records => records.Perm s.records
  | some (.save _), .done => True
  | some (.delete _), .done => True
  | _, _ => False

instance (s : PhaseStore) (request : Option Request) (reply : Reply) :
    Decidable (s.MayAnswer request reply) :=
  match request, reply with
  | none, _ => isTrue trivial
  | some (.save _), .refused _ => isTrue trivial
  | some (.delete _), .refused _ => isTrue trivial
  | some .load, .refused _ => isTrue trivial
  | some .load, .loaded records => inferInstanceAs (Decidable (records.Perm s.records))
  | some .load, .done => isFalse id
  | some (.save _), .done => isTrue trivial
  | some (.save _), .loaded _ => isFalse id
  | some (.delete _), .done => isTrue trivial
  | some (.delete _), .loaded _ => isFalse id

/-- The record that takes its place in the store with a reply. -/
def Request.saved? : Option Request → Reply → Option PhaseRecord
  | some (.save record), .done => some record
  | _, _ => none

/-- A record that was saved, with the number of the call that saved it. -/
structure Save where
  call : Nat
  record : PhaseRecord
deriving DecidableEq

/-- A session, the calls made in it by their numbers, and the records saved in it. -/
structure History where
  session : Session
  calls : List Call
  saves : List Save

namespace History

def of (t : Tracker) : History :=
  ⟨Session.of t, [], []⟩

def start (h : History) (call : Call) : History :=
  ⟨h.session.start call, h.calls ++ [call], h.saves⟩

/-- The phases that were saved for a pair, in their order. -/
def phasesSaved (h : History) (pair : Participation) : List Phase :=
  (h.saves.filter fun save => save.record.pair = pair).map fun save => save.record.phase

/-- The records that a call has saved. -/
def savedBy (h : History) (call : Nat) : List PhaseRecord :=
  (h.saves.filter fun save => save.call = call).map Save.record

/-- How a history goes on: with a call, or with a step of one. -/
inductive Step (h : History) : History → Prop
  | start (call : Call) : Step h (h.start call)
  | move (call : Nat) (reply : Reply) {a : Activity} {s : Session}
    (turn : h.session.activities[call]? = some a)
    (honest : h.session.tracker.store.MayAnswer a.request? reply)
    (step : h.session.step? call reply = some s) :
    Step h ⟨s, h.calls, h.saves ++ (Request.saved? a.request? reply).toList.map (Save.mk call)⟩

/-- One history is the start of another. -/
def LeadsTo : History → History → Prop :=
  Relation.ReflTransGen Step

/-- No call is in flight. -/
def Settled (h : History) : Prop :=
  ∀ a ∈ h.session.activities, ∃ outcome, a = .finished outcome

/-- Steps as moves. -/
theorem step_cases {h h' : History} (hstep : Step h h') :
    (∃ call, h' = h.start call) ∨
      ∃ n a reply t next, h.session.activities[n]? = some a ∧
        h.session.tracker.store.MayAnswer a.request? reply ∧
        a.Moves n h.session.tracker reply t next ∧
        h' = ⟨⟨t, h.session.activities.set n next⟩, h.calls,
          h.saves ++ (Request.saved? a.request? reply).toList.map (Save.mk n)⟩ := by
  cases hstep with
  | start call => exact Or.inl ⟨call, rfl⟩
  | move n reply hturn honest hs =>
    rename_i a s
    unfold Session.step? at hs
    rw [hturn, Option.bind_some] at hs
    obtain ⟨⟨t, next⟩, hmoves, rfl⟩ := Option.map_eq_some_iff.1 hs
    exact Or.inr ⟨n, a, reply, t, next, hturn, honest, Activity.moves_of_step? hmoves, rfl⟩

/-! ### Playing a schedule -/

/-- What makes a history go on. -/
inductive Event
  | start (call : Call)
  | move (call : Nat) (reply : Reply)

/-- A history after one more event, if the event is possible. -/
def after? (h : History) : Event → Option History
  | .start call => some (h.start call)
  | .move call reply => do
    let a ← h.session.activities[call]?
    let s ← h.session.step? call reply
    if h.session.tracker.store.MayAnswer a.request? reply then
      return ⟨s, h.calls, h.saves ++ (Request.saved? a.request? reply).toList.map (Save.mk call)⟩
    else none

def play? (h : History) (events : List Event) : Option History :=
  events.foldlM after? h

theorem step_of_after? {h h' : History} {event : Event} (ha : h.after? event = some h') :
    Step h h' := by
  cases event with
  | start call =>
    obtain rfl := Option.some.inj ha
    exact .start call
  | move call reply =>
    obtain ⟨a, hturn, ha⟩ := Option.bind_eq_some_iff.1 ha
    obtain ⟨s, hstep, ha⟩ := Option.bind_eq_some_iff.1 ha
    split at ha
    · rename_i honest
      obtain rfl := Option.some.inj ha
      exact .move call reply hturn honest hstep
    · cases ha

/-- What can be played is a history. -/
theorem leadsTo_of_play? {h h' : History} (events : List Event) (hplay : h.play? events = some h') :
    LeadsTo h h' := by
  induction events generalizing h with
  | nil =>
    obtain rfl := Option.some.inj hplay
    exact .refl
  | cons event events ih =>
    rw [play?, List.foldlM_cons] at hplay
    obtain ⟨h₁, hafter, hplay⟩ := Option.bind_eq_some_iff.1 hplay
    exact .head (step_of_after? hafter) (ih hplay)

end History

end ReplicaRing
