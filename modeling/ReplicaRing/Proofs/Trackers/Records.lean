import ReplicaRing.Proofs.Trackers.Steps
import Mathlib.Data.List.Chain

/-!
# What calls have saved

Along a history in which no ring is forgotten, the session stays coherent
(`History.Kept.coherent`), and the phases saved for a pair are a way through the phases: each can be
moved to from the one before, the first of a new pair is the initial one, and the last is the one
that is stored (`History.Walk`). What a call has saved can be told from where it stands
(`History.Recorded`): a transition saves its record as it ends by it, and nothing else.
-/

namespace ReplicaRing

/-! ### What a call can be doing -/

/-- Whether a question is read for a call. -/
def Question.Serves : Question → Call → Prop
  | .phase, .phase _ => True
  | .lagging .., .lagging .. => True
  | _, _ => False

/-- Whether a call can come to an outcome. -/
def Outcome.Serves : Outcome → Call → Prop
  | .begun _, .begin _ => True
  | .moved, .transition .. => True
  | .seen _, .phase _ => True
  | .lagging _, .lagging .. => True
  | .forgotten, .forget _ => True
  | .recovered _, .recover => True
  | .failed _, _ => True
  | _, _ => False

namespace Activity

/-- Whether a call can come to an activity. -/
def Serves (call : Call) : Activity → Prop
  | beginning pair | joining pair _ | joined pair _ _ | savingNew pair _ | withdrawing pair _ _ =>
    call = .begin pair
  | moving pair target | lockingMove pair target _ | checkingMove pair target _
  | savingMove pair target _ => call = .transition pair target
  | asking _ question | reading _ _ question | confirming _ _ _ question => question.Serves call
  | gathering ring | lockingAll ring _ _ | deleting ring _ | clearing ring _ => call = .forget ring
  | loading | merging _ _ | adopting _ _ _ _ => call = .recover
  | finished outcome => outcome.Serves call

theorem serves_start (call : Call) : call.start.Serves call := by
  cases call with
  | lagging ring participants required => cases participants <;> trivial
  | _ => trivial

theorem serves_answer {question : Question} {call : Call} (h : question.Serves call)
    (pair : Participation) (seen : Option Phase) : (question.answer pair seen).Serves call := by
  cases question with
  | phase => cases call <;> trivial
  | lagging ring required rest found => cases call <;> cases rest <;> trivial

variable {n : Nat} {reply : Reply} {t t' : Tracker} {a next : Activity}

theorem Serves.of_moves {call : Call} (h : a.Serves call) (hmoves : a.Moves n t reply t' next) :
    next.Serves call := by
  cases hmoves with
  | missAsked | confirmLive | confirmDead => exact serves_answer h ..
  | joinLive | saveNew | saveMove | clear | mergedAll => cases h; trivial
  | missMoved | withdraw | rejectDead | rejectMove | refuseMove | refuseDelete | refuseLoad =>
    cases call <;> trivial
  | _ => exact h

theorem forgets?_eq_none {call : Call} (h : a.Serves call) (hcall : ∀ ring, call ≠ .forget ring) :
    a.forgets? = none := by
  cases a with
  | lockingAll ring | deleting ring | clearing ring => exact absurd h (hcall ring)
  | _ => rfl

/-- Records are saved for new pairs and for moves. -/
theorem eq_of_request? {r : PhaseRecord} (h : a.request? = some (.save r)) :
    (∃ cell, a = savingNew r.pair cell ∧ r.phase = .initial) ∨
      ∃ cell, a = savingMove r.pair r.phase cell := by
  cases a with
  | savingNew pair cell =>
    cases h
    exact Or.inl ⟨cell, rfl, rfl⟩
  | savingMove pair target cell =>
    cases h
    exact Or.inr ⟨cell, rfl⟩
  | _ => cases h

/-- A call that is over takes no step. -/
theorem Moves.ne_finished (hmoves : a.Moves n t reply t' next) (outcome : Outcome) :
    a ≠ finished outcome := by
  rintro rfl
  cases hmoves

/-- The store changes by what is saved, unless a ring is deleted. -/
theorem Moves.store_eq (hmoves : a.Moves n t reply t' next) (hforgets : a.forgets? = none) :
    t'.store = (Request.saved? a.request? reply).elim t.store t.store.save := by
  cases hmoves with
  | delete | refuseDelete | clear => cases hforgets
  | _ => rfl

end Activity

theorem Request.saved?_eq_some {request : Option Request} {reply : Reply} {r : PhaseRecord}
    (h : Request.saved? request reply = some r) : request = some (.save r) ∧ reply = .done := by
  unfold Request.saved? at h
  split at h
  · cases h
    exact ⟨rfl, rfl⟩
  · cases h

namespace History

variable {h h' : History}

/-! ### Saves by call and by pair -/

theorem savedBy_append (h : History) (s : Session) (m n : Nat) (records : List PhaseRecord) :
    savedBy ⟨s, h.calls, h.saves ++ records.map (Save.mk m)⟩ n =
      h.savedBy n ++ if m = n then records else [] := by
  unfold savedBy
  rw [List.filter_append, List.map_append, List.filter_map, List.map_map]
  by_cases hmn : m = n <;> simp [hmn, Function.comp_def]

theorem phasesSaved_append (h : History) (s : Session) (m : Nat) (records : List PhaseRecord)
    (pair : Participation) :
    phasesSaved ⟨s, h.calls, h.saves ++ records.map (Save.mk m)⟩ pair =
      h.phasesSaved pair ++ (records.filter fun r => r.pair = pair).map PhaseRecord.phase := by
  unfold phasesSaved
  rw [List.filter_append, List.map_append, List.filter_map, List.map_map]
  rfl

/-! ### The account of each call -/

/-- What is known of the calls of a history and of what they have saved. -/
structure Recorded (h : History) : Prop where
  length : h.session.activities.length = h.calls.length
  serves : ∀ (n : Nat) (call : Call) (a : Activity), h.calls[n]? = some call →
    h.session.activities[n]? = some a → a.Serves call
  numbered : ∀ save ∈ h.saves, save.call < h.calls.length
  moves : ∀ (n : Nat) (pair : Participation) (target : Phase) (a : Activity),
    h.calls[n]? = some (.transition pair target) → h.session.activities[n]? = some a →
      h.savedBy n = if a = .finished .moved then [⟨pair, target⟩] else []

theorem recorded_of (t : Tracker) : Recorded (of t) where
  length := rfl
  serves n call a hcall := by
    rw [of, List.getElem?_nil] at hcall
    cases hcall
  numbered := by simp [of]
  moves n pair target a hcall := by
    rw [of, List.getElem?_nil] at hcall
    cases hcall

theorem Recorded.start (hrec : h.Recorded) (call : Call) : (h.start call).Recorded where
  length := by simp [History.start, Session.start, hrec.length]
  serves n c a hc ha := by
    rcases getElem?_concat_eq_some₂ hrec.length hc ha with ⟨hc, ha⟩ | ⟨-, rfl, rfl⟩
    · exact hrec.serves n c a hc ha
    · exact Activity.serves_start call
  numbered save hsave := by
    have := hrec.numbered save hsave
    simp only [History.start, List.length_append]
    omega
  moves n pair target a hc ha := by
    have hsaved : (h.start call).savedBy n = h.savedBy n := rfl
    rw [hsaved]
    rcases getElem?_concat_eq_some₂ hrec.length hc ha with ⟨hc, ha⟩ | ⟨hn, rfl, rfl⟩
    · exact hrec.moves n pair target a hc ha
    · -- Nothing has been saved under the new number.
      have hnone : h.saves.filter (fun save => save.call = n) = [] :=
        List.filter_eq_nil_iff.2 fun save hsave => by
          have := hrec.numbered save hsave
          simp only [decide_eq_true_eq]
          omega
      rw [savedBy, hnone]
      rfl

/-- A transition saves its record as it ends by it, and nothing else. -/
theorem saved?_of_moves {n : Nat} {reply : Reply} {t t' : Tracker} {a next : Activity}
    {pair : Participation} {target : Phase} (hserves : a.Serves (.transition pair target))
    (hmoves : a.Moves n t reply t' next) :
    (Request.saved? a.request? reply).toList =
      if next = .finished .moved then [⟨pair, target⟩] else [] := by
  cases hmoves with
  | saveMove =>
    cases hserves
    rfl
  | @missAsked _ question | @confirmLive _ _ _ question | @confirmDead _ _ _ question =>
    cases question <;> cases hserves
  | saveNew | joinLive | clear | mergedAll => cases hserves
  | _ => rfl

theorem Recorded.step (hrec : h.Recorded) (hstep : Step h h') : h'.Recorded := by
  rcases step_cases hstep with ⟨call, rfl⟩ | ⟨m, a, reply, t, next, ha, -, hmoves, rfl⟩
  · exact hrec.start call
  · have hactivity := Session.getElem?_set_of_some ha next
    have hm : m < h.calls.length := by
      rw [← hrec.length]
      exact (List.getElem?_eq_some_iff.1 ha).1
    have hserves : ∀ call, h.calls[m]? = some call → next.Serves call := fun call hcall =>
      (hrec.serves m call a hcall ha).of_moves hmoves
    refine ⟨by simpa using hrec.length, ?_, ?_, ?_⟩
    · intro n call b hcall hb
      rw [hactivity] at hb
      split at hb
      · rename_i hn
        rw [hn] at hcall
        obtain rfl := Option.some.inj hb
        exact hserves call hcall
      · exact hrec.serves n call b hcall hb
    · intro save hsave
      rcases List.mem_append.1 hsave with hsave | hsave
      · exact hrec.numbered save hsave
      · obtain ⟨r, -, rfl⟩ := List.mem_map.1 hsave
        exact hm
    · intro n pair target b hcall hb
      rw [savedBy_append]
      rw [hactivity] at hb
      split at hb
      · rename_i hn
        subst hn
        obtain rfl := Option.some.inj hb
        have hbefore := hrec.moves n pair target a hcall ha
        rw [if_neg (hmoves.ne_finished _)] at hbefore
        rw [hbefore, if_pos rfl, saved?_of_moves (hrec.serves n _ a hcall ha) hmoves]
        rfl
      · rename_i hn
        rw [if_neg (Ne.symm hn), List.append_nil]
        exact hrec.moves n pair target b hcall hb

/-! ### The way of each pair -/

/-- The phases of a pair from the start on: the one that was stored then, if any, and those that
have been saved since. -/
def way (h : History) (first : PhaseStore) (pair : Participation) : List Phase :=
  (first.phase? pair).toList ++ h.phasesSaved pair

/-- What is known of the phases that have been saved for a pair. -/
structure Walk (first : PhaseStore) (h : History) (pair : Participation) : Prop where
  chain : (h.way first pair).IsChain fun a b => a.canMove b = true
  last : (h.way first pair).getLast? = h.session.tracker.store.phase? pair
  head : first.phase? pair = none → ∀ p ∈ (h.phasesSaved pair).head?, p = .initial

theorem walk_of (t : Tracker) (pair : Participation) : Walk t.store (of t) pair where
  chain := by
    cases h : t.store.phase? pair <;> simp [way, phasesSaved, of, h]
  last := by
    cases h : t.store.phase? pair <;> simp [way, phasesSaved, of, Session.of, h]
  head _ p hp := by simp [phasesSaved, of] at hp

/-- The record that a call is about to save is initial if nothing is stored for its pair, and
otherwise a move from what is stored. -/
theorem save_follows {s : Session} (hs : s.Coherent) {n : Nat} {a : Activity}
    (hn : s.activities[n]? = some a) {r : PhaseRecord} (hr : a.request? = some (.save r)) :
    s.tracker.store.phase? r.pair = none ∧ r.phase = .initial ∨
      ∃ p, s.tracker.store.phase? r.pair = some p ∧ p.canMove r.phase = true := by
  have hground := hs.grounded n a hn
  rcases Activity.eq_of_request? hr with ⟨cell, rfl, hphase⟩ | ⟨cell, rfl⟩
  · exact Or.inl ⟨hground.2, hphase⟩
  · obtain ⟨c, hc, hpair, hholder, hlive, hmove⟩ := hground
    have hstored := hs.stored_of_openTo hn hc hlive (Cell.openTo_of_mine hholder) fun _ => rfl
    rw [hpair] at hstored
    exact Or.inr ⟨c.phase, hstored, hmove⟩

variable {first : PhaseStore} {pair : Participation}

theorem Walk.congr (hwalk : Walk first h pair) (hphases : h'.phasesSaved pair = h.phasesSaved pair)
    (hstored : h'.session.tracker.store.phase? pair = h.session.tracker.store.phase? pair) :
    Walk first h' pair := by
  have hway : h'.way first pair = h.way first pair := congrArg _ hphases
  refine ⟨?_, ?_, ?_⟩
  · rw [hway]
    exact hwalk.chain
  · rw [hway, hstored]
    exact hwalk.last
  · rw [hphases]
    exact hwalk.head

/-- The way of a pair goes on from what is stored. -/
theorem Walk.save (hwalk : Walk first h pair) {p : Phase}
    (hphases : h'.phasesSaved pair = h.phasesSaved pair ++ [p])
    (hstored : h'.session.tracker.store.phase? pair = some p)
    (hfollows : h.session.tracker.store.phase? pair = none ∧ p = .initial ∨
      ∃ q, h.session.tracker.store.phase? pair = some q ∧ q.canMove p = true) :
    Walk first h' pair := by
  have hway : h'.way first pair = h.way first pair ++ [p] := by
    rw [way, hphases, ← List.append_assoc]
    rfl
  have hlast := hwalk.last
  refine ⟨?_, ?_, fun hfirst q hq => ?_⟩
  · rw [hway]
    refine hwalk.chain.append (List.isChain_singleton _) fun a ha b hb => ?_
    obtain rfl : p = b := by simpa using hb
    rw [Option.mem_def, hlast] at ha
    rcases hfollows with ⟨hnone, -⟩ | ⟨q, hq, hmove⟩
    · rw [hnone] at ha
      cases ha
    · obtain rfl := Option.some.inj (hq.symm.trans ha)
      exact hmove
  · rw [hway, List.getLast?_concat, hstored]
  · rw [hphases] at hq
    cases hbefore : h.phasesSaved pair with
    | cons q' rest =>
      refine hwalk.head hfirst q ?_
      rw [hbefore] at hq ⊢
      exact hq
    | nil =>
      rw [way, hfirst, hbefore] at hlast
      rw [hbefore] at hq
      obtain rfl : p = q := by simpa using hq
      rcases hfollows with ⟨-, hinitial⟩ | ⟨q', hq', -⟩
      · exact hinitial
      · rw [hq'] at hlast
        cases hlast

theorem Walk.step (hwalk : Walk first h pair) (hcoh : h.session.Coherent) {m : Nat}
    {a next : Activity} {reply : Reply} {t : Tracker}
    (ha : h.session.activities[m]? = some a) (hforgets : a.forgets? = none)
    (hmoves : a.Moves m h.session.tracker reply t next) :
    Walk first ⟨⟨t, h.session.activities.set m next⟩, h.calls,
      h.saves ++ (Request.saved? a.request? reply).toList.map (Save.mk m)⟩ pair := by
  have hstore := hmoves.store_eq hforgets
  have hphases := phasesSaved_append h ⟨t, h.session.activities.set m next⟩ m
    (Request.saved? a.request? reply).toList pair
  cases hsaved : Request.saved? a.request? reply with
  | none =>
    rw [hsaved] at hstore hphases
    refine hwalk.congr (hphases.trans (List.append_nil _)) ?_
    rw [hstore]
    rfl
  | some r =>
    rw [hsaved] at hstore hphases
    have hphase := PhaseStore.phase?_save h.session.tracker.store r pair
    by_cases hpair : r.pair = pair
    · subst hpair
      refine hwalk.save (hphases.trans (by simp)) ?_
        (save_follows hcoh ha (Request.saved?_eq_some hsaved).1)
      rw [hstore]
      exact hphase.trans (if_pos rfl)
    · refine hwalk.congr (hphases.trans (by simp [hpair])) ?_
      rw [hstore]
      exact hphase.trans (if_neg hpair)

/-! ### Histories without forgetting -/

/-- No ring is forgotten. -/
def Keeping (h : History) : Prop :=
  ∀ ring, .forget ring ∉ h.calls

/-- What holds along the histories of a tracker in which no ring is forgotten. -/
structure Kept (first : PhaseStore) (h : History) : Prop where
  coherent : h.session.Coherent
  recorded : h.Recorded
  walk : ∀ pair, Walk first h pair

theorem Step.calls_sublist (hstep : Step h h') : h.calls.Sublist h'.calls := by
  cases hstep with
  | start call => exact List.sublist_append_left ..
  | move => exact List.Sublist.refl _

theorem LeadsTo.calls_sublist (hlead : LeadsTo h h') : h.calls.Sublist h'.calls := by
  induction hlead with
  | refl => exact List.Sublist.refl _
  | tail _ hstep ih => exact ih.trans hstep.calls_sublist

theorem Keeping.of_leadsTo (hkeep : h'.Keeping) (hlead : LeadsTo h h') : h.Keeping :=
  fun ring hmem => hkeep ring (hlead.calls_sublist.subset hmem)

/-- No call is about to delete or take out the cells of a ring. -/
theorem Recorded.forgets?_eq_none (hrec : h.Recorded) (hkeep : h.Keeping) :
    ∀ a ∈ h.session.activities, a.forgets? = none := by
  intro a ha
  obtain ⟨n, hn⟩ := List.mem_iff_getElem?.1 ha
  obtain ⟨call, hcall⟩ : ∃ call, h.calls[n]? = some call := by
    obtain ⟨hlt, -⟩ := List.getElem?_eq_some_iff.1 hn
    exact ⟨_, List.getElem?_eq_getElem (hrec.length ▸ hlt)⟩
  refine Activity.forgets?_eq_none (hrec.serves n call a hcall hn) ?_
  rintro ring rfl
  exact hkeep ring (List.mem_of_getElem? hcall)

theorem Kept.step (hkept : Kept first h) (hkeep : h.Keeping)
    (hstep : Step h h') : Kept first h' := by
  have hrecorded := hkept.recorded.step hstep
  have hforgets := hkept.recorded.forgets?_eq_none hkeep
  rcases step_cases hstep with ⟨call, rfl⟩ | ⟨m, a, reply, t, next, ha, honest, hmoves, rfl⟩
  · exact ⟨hkept.coherent.start call, hrecorded, fun pair =>
      ⟨(hkept.walk pair).chain, (hkept.walk pair).last, (hkept.walk pair).head⟩⟩
  · have hcalm : h.session.Undisturbed ⟨t, h.session.activities.set m next⟩ := by
      intro b hb ring hring
      rw [hforgets b hb] at hring
      cases hring
    exact ⟨hkept.coherent.of_moves ha honest hmoves hcalm, hrecorded, fun pair =>
      (hkept.walk pair).step hkept.coherent ha (hforgets a (List.mem_of_getElem? ha)) hmoves⟩

theorem Kept.of_leadsTo (hkept : Kept first h) (hlead : LeadsTo h h')
    (hkeep : h'.Keeping) : Kept first h' := by
  induction hlead with
  | refl => exact hkept
  | tail _ hstep ih =>
    have hbefore := hkeep.of_leadsTo (.single hstep)
    exact (ih hbefore).step hbefore hstep

theorem kept_of {t : Tracker} (ht : t.InStep) : Kept t.store (of t) :=
  ⟨Session.coherent_of_inStep ht, recorded_of t, walk_of t⟩

end History

end ReplicaRing
