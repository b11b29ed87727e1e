import ReplicaRing.Proofs.Trackers.Schedules
import ReplicaRing.Proofs.Trackers.Waiting

/-!
# Quorums

A call that asks which participants lag behind reads their phases one after the other, while others
move them on. If it finds none, a quorum is met (`Session.QuorumMet`), and it stays met from then on:
each participant has the required phase, or has given up since it was read
(`Session.quorum_stays_met`).

What a call has found by a moment is kept in `Question.Surveys` and `Activity.Surveys`. That somebody
has met the required phase is a statement about the past, `Session.MetBefore`: the call has read the
phase at an earlier moment, in a cell that nobody was going to withdraw by then. So the pair has
stayed tracked, and its phase has only gone further on.
-/

namespace ReplicaRing

/-! ### What a survey has found -/

section Survey

variable (ring : RingVersion) (required : Phase) (participants : List NodeId)
variable (Met : NodeId → Prop) (Read : Participation → Nat → Phase → Prop)

/-- The question for the phase of a pair is part of a survey: the participants before this one have
been seen, and have all met the required phase unless some lag behind. -/
def Question.Surveys (pair : Participation) : Question → Prop
  | .phase => False
  | .lagging ring' required' rest found =>
    ring' = ring ∧ required' = required ∧ pair.ring = ring ∧
      ∃ past, participants = past ++ pair.participant :: rest ∧ (found = [] → ∀ who ∈ past, Met who)

/-- A call is in the midst of a survey or has finished it. -/
def Activity.Surveys : Activity → Prop
  | .asking pair question | .reading pair _ question =>
    question.Surveys ring required participants Met pair
  | .confirming pair cell seen question =>
    question.Surveys ring required participants Met pair ∧ Read pair cell seen
  | .finished (.lagging found) => found = [] → ∀ who ∈ participants, Met who
  | _ => False

variable {ring required participants Met Read}

theorem Activity.surveys_survey {past rest found : List NodeId} (hparts : participants = past ++ rest)
    (hmet : found = [] → ∀ who ∈ past, Met who) :
    (Activity.survey ring required rest found).Surveys ring required participants Met Read := by
  cases rest with
  | nil =>
    rw [List.append_nil] at hparts
    rw [hparts]
    exact hmet
  | cons who rest => exact ⟨rfl, rfl, rfl, past, hparts, hmet⟩

/-- A survey goes on once the phase of a participant is known. -/
theorem Question.Surveys.answer {question : Question} {pair : Participation} {seen : Option Phase}
    (h : question.Surveys ring required participants Met pair)
    (hseen : ∀ p, seen = some p → required.satisfiedBy p = true → Met pair.participant) :
    (question.answer pair seen).Surveys ring required participants Met Read := by
  cases question with
  | phase => exact h.elim
  | lagging ring' required' rest found =>
    obtain ⟨rfl, rfl, -, past, hparts, hmet⟩ := h
    have hparts' : participants = (past ++ [pair.participant]) ++ rest := by simp [hparts]
    refine Activity.surveys_survey hparts' fun hfound who hwho => ?_
    -- Nobody lags behind so far, neither this participant nor one before.
    split at hfound
    · rename_i hreached
      obtain ⟨p, rfl, hp⟩ := (Option.any_eq_true _ _).1 hreached
      rcases List.mem_append.1 hwho with hwho | hwho
      · exact hmet hfound who hwho
      · rw [List.mem_singleton.1 hwho]
        exact hseen p rfl hp
    · simp at hfound

theorem Question.Surveys.mono {Met' : NodeId → Prop} {question : Question} {pair : Participation}
    (h : question.Surveys ring required participants Met pair) (hmet : ∀ who, Met who → Met' who) :
    question.Surveys ring required participants Met' pair := by
  cases question with
  | phase => exact h.elim
  | lagging ring' required' rest found =>
    obtain ⟨hring, hrequired, hpair, past, hparts, hpast⟩ := h
    exact ⟨hring, hrequired, hpair, past, hparts, fun hfound who hwho =>
      hmet who (hpast hfound who hwho)⟩

theorem Activity.Surveys.mono {Met' : NodeId → Prop} {Read' : Participation → Nat → Phase → Prop}
    {a : Activity} (h : a.Surveys ring required participants Met Read)
    (hmet : ∀ who, Met who → Met' who)
    (hread : ∀ pair cell seen question, a = .confirming pair cell seen question →
      Read pair cell seen → Read' pair cell seen) :
    a.Surveys ring required participants Met' Read' := by
  cases a with
  | asking | reading => exact Question.Surveys.mono h hmet
  | confirming pair cell seen question =>
    exact ⟨h.1.mono hmet, hread pair cell seen question rfl h.2⟩
  | finished outcome =>
    cases outcome with
    | lagging found => exact fun hfound who hwho => hmet who (h hfound who hwho)
    | _ => exact h.elim
  | _ => exact h.elim

end Survey

/-! ### Surveys along a schedule -/

namespace Session

/-- A call has come to the answer that a quorum is met: nobody lags behind. -/
def QuorumMet (s : Session) (call : Nat) : Prop :=
  s.outcome? call = some (.lagging [])

/-- The event at a moment lets a call read the phase of a pair in a cell. -/
def ReadsAt (s : Session) (events : Nat → History.Event) (call : Nat) (pair : Participation)
    (cell : Nat) (seen : Phase) (k : Nat) : Prop :=
  ∃ question, (s.run events k).activities[call]? = some (.reading pair cell question) ∧
    (s.run events (k + 1)).activities[call]? = some (.confirming pair cell seen question)

/-- Before a moment a call has read of a participant that it has reached a phase, in a cell that
stays. -/
def MetBefore (s : Session) (events : Nat → History.Event) (call : Nat) (ring : RingVersion)
    (required : Phase) (i : Nat) (who : NodeId) : Prop :=
  ∃ k < i, ∃ cell seen, s.ReadsAt events call ⟨ring, who⟩ cell seen k ∧
    (s.run events k).Fixed cell ⟨ring, who⟩ seen ∧ required.satisfiedBy seen = true

/-- Before a moment a call has read a phase in a cell; if the cell is live at that moment, it
stays. -/
def ReadBefore (s : Session) (events : Nat → History.Event) (call i : Nat) (pair : Participation)
    (cell : Nat) (seen : Phase) : Prop :=
  ∃ k < i, s.ReadsAt events call pair cell seen k ∧
    ((s.run events i).tracker.isLive cell = true → (s.run events k).Fixed cell pair seen)

/-- By a moment a call has surveyed participants, or has come some way. -/
def Surveying (s : Session) (events : Nat → History.Event) (call : Nat) (ring : RingVersion)
    (required : Phase) (participants : List NodeId) (i : Nat) : Prop :=
  ∃ a, (s.run events i).activities[call]? = some a ∧
    a.Surveys ring required participants (s.MetBefore events call ring required i)
      (s.ReadBefore events call i)

variable {s : Session} {events : Nat → History.Event} {n i : Nat} {ring : RingVersion}
  {required : Phase} {participants : List NodeId}

theorem MetBefore.succ {who : NodeId} (h : s.MetBefore events n ring required i who) :
    s.MetBefore events n ring required (i + 1) who := by
  obtain ⟨k, hk, hread⟩ := h
  exact ⟨k, Nat.lt_succ_of_lt hk, hread⟩

/-- What was read in a cell is still of use after an event if the cell is still live then. -/
theorem ReadBefore.succ {pair : Participation} {cell : Nat} {seen : Phase}
    (h : s.ReadBefore events n i pair cell seen) {c : Cell}
    (hc : (s.run events i).tracker.cells[cell]? = some c) :
    s.ReadBefore events n (i + 1) pair cell seen := by
  obtain ⟨k, hk, hread, hfixed⟩ := h
  exact ⟨k, Nat.lt_succ_of_lt hk, hread, fun hlive => hfixed (isLive_of_after _ _ hc hlive)⟩

/-- An event that leaves a call as it is leaves its survey as it is. -/
theorem Surveying.keep (h : s.Surveying events n ring required participants i)
    (hs : (s.run events i).Secured)
    (hsame : (s.run events (i + 1)).activities[n]? = (s.run events i).activities[n]?) :
    s.Surveying events n ring required participants (i + 1) := by
  obtain ⟨a, ha, hsurveys⟩ := h
  refine ⟨a, hsame.trans ha, hsurveys.mono (fun who => MetBefore.succ) ?_⟩
  rintro pair cell seen question rfl hread
  obtain ⟨c, hc, -⟩ : ∃ c : Cell, (s.run events i).tracker.cells[cell]? = some c ∧ c.pair = pair :=
    hs.secured n _ ha
  exact hread.succ hc

/-- A call takes its survey one step further. -/
theorem Surveying.of_moves (hs : (s.run events i).Secured) {a next : Activity} {reply : Reply}
    {t : Tracker} (ha : (s.run events i).activities[n]? = some a)
    (hsurveys : a.Surveys ring required participants (s.MetBefore events n ring required i)
      (s.ReadBefore events n i))
    (hmoves : a.Moves n (s.run events i).tracker reply t next)
    (heq : s.run events (i + 1) = ⟨t, (s.run events i).activities.set n next⟩) :
    s.Surveying events n ring required participants (i + 1) := by
  have hnext : (s.run events (i + 1)).activities[n]? = some next := by
    rw [heq, getElem?_set_of_some ha, if_pos rfl]
  refine ⟨next, hnext, ?_⟩
  have hmet : ∀ who, s.MetBefore events n ring required i who →
      s.MetBefore events n ring required (i + 1) who := fun who => MetBefore.succ
  cases hmoves with
  | findAsked => exact Question.Surveys.mono hsurveys hmet
  | missAsked =>
    refine Question.Surveys.answer (Question.Surveys.mono hsurveys hmet) fun p hp => ?_
    cases hp
  | @readAsked pair cell question seen _ free =>
    refine ⟨Question.Surveys.mono hsurveys hmet, i, Nat.lt_succ_self i, ⟨question, ha, hnext⟩, ?_⟩
    intro hlive
    -- The lock is free, so nobody is going to withdraw the cell.
    obtain ⟨c, hc, hfree, rfl⟩ := Tracker.peek?_eq_some.1 free
    obtain ⟨d, hd, rfl⟩ : ∃ c : Cell, (s.run events i).tracker.cells[cell]? = some c ∧
      c.pair = pair := hs.secured n _ ha
    obtain rfl := Option.some.inj (hc.symm.trans hd)
    have hclive : c.live = true := by simpa [heq, Tracker.isLive, hc] using hlive
    exact hs.fixed_of_free hc hclive hfree
  | @confirmLive pair cell seen question _ live =>
    obtain ⟨hsurveys, k, hk, hread, hfixed⟩ := hsurveys
    refine Question.Surveys.answer (hsurveys.mono hmet) fun p hp hreached => ?_
    obtain rfl := Option.some.inj hp
    have hpair : pair = ⟨ring, pair.participant⟩ := by
      cases question with
      | phase => exact hsurveys.elim
      | lagging => rw [← hsurveys.2.2.1]
    rw [hpair] at hread hfixed
    exact ⟨k, Nat.lt_succ_of_lt hk, cell, seen, hread, hfixed live, hreached⟩
  | confirmDead =>
    refine Question.Surveys.answer (hsurveys.1.mono hmet) fun p hp => ?_
    cases hp
  | _ => exact hsurveys.elim

theorem Surveying.succ (h : s.Surveying events n ring required participants i)
    (hs : (s.run events i).Secured) : s.Surveying events n ring required participants (i + 1) := by
  rcases (s.run events i).after_cases (events i) with
    heq | ⟨call, -, heq⟩ | ⟨m, a, reply, t, next, hm, hmoves, heq⟩
  · exact h.keep hs (congrArg (fun s => s.activities[n]?) heq)
  · refine h.keep hs ((congrArg (fun s => s.activities[n]?) heq).trans ?_)
    obtain ⟨a, ha, -⟩ := h
    rw [getElem?_start ha, ha]
  · by_cases hmn : m = n
    · subst hmn
      obtain ⟨b, hb, hsurveys⟩ := h
      obtain rfl := Option.some.inj (hm.symm.trans hb)
      exact Surveying.of_moves hs hm hsurveys hmoves heq
    · refine h.keep hs ((congrArg (fun s => s.activities[n]?) heq).trans ?_)
      exact List.getElem?_set_ne hmn

/-- A survey goes on from the moment it is asked for. -/
theorem surveying_run (hs : ∀ i, (s.run events i).Secured) {m : Nat}
    (hm : events m = .start (.lagging ring participants required)) (hi : m < i) :
    s.Surveying events (s.run events m).activities.length ring required participants i := by
  induction hi with
  | refl =>
    have hrun : s.run events (m + 1) =
        (s.run events m).start (.lagging ring participants required) := by
      rw [run, hm]
      rfl
    refine ⟨.survey ring required participants [], ?_, ?_⟩
    · rw [hrun, start, List.getElem?_concat_length]
      rfl
    · exact Activity.surveys_survey (List.nil_append participants).symm (by simp)
  | @step i _ ih => exact ih.succ (hs i)

/-! ### Met quorums -/

/-- The phase of a pair at a moment. -/
def phaseAt? (s : Session) (events : Nat → History.Event) (i : Nat) (pair : Participation) :
    Option Phase :=
  (s.run events i).tracker.held? pair

/-- The event at a moment makes a participant give up. -/
def GivesUpAt (s : Session) (events : Nat → History.Event) (l : Nat) (pair : Participation) : Prop :=
  s.phaseAt? events l pair ≠ some .abandoned ∧ s.phaseAt? events (l + 1) pair = some .abandoned

/-- Who does not give up after a moment stays where the required phase is met. -/
theorem Fixed.satisfiedBy (hs : ∀ i, (s.run events i).Secured) {cell k j : Nat}
    {pair : Participation} {seen : Phase} (h : (s.run events k).Fixed cell pair seen)
    (hreached : required.satisfiedBy seen = true) (hkj : k ≤ j) :
    ∃ q, s.phaseAt? events j pair = some q ∧
      ((∀ l, k ≤ l → l < j → ¬ s.GivesUpAt events l pair) → required.satisfiedBy q = true) := by
  obtain ⟨q, hq, hreaches⟩ := h.run hs hkj
  have hseen : s.phaseAt? events k pair = some seen := h.held? (hs k)
  have hphase : s.phaseAt? events j pair = some q := hq.held? (hs j)
  refine ⟨q, hphase, fun hstays => ?_⟩
  by_cases hgone : seen = .abandoned
  · -- Nobody comes back, so giving up is what is required.
    have hsame : q = seen := Phase.eq_of_reaches_of_isFinal (by rw [hgone]; rfl) hreaches
    rwa [hsame]
  · have hnever : ∀ l, k ≤ l → l ≤ j → s.phaseAt? events l pair ≠ some .abandoned := by
      intro l hkl
      induction hkl with
      | refl =>
        intro _ habandoned
        exact hgone (Option.some.inj (hseen.symm.trans habandoned))
      | @step l hkl ih =>
        intro hlj habandoned
        exact hstays l hkl hlj ⟨ih (Nat.le_of_lt hlj), habandoned⟩
    have hq' : q ≠ .abandoned := by
      rintro rfl
      exact hnever j hkj (Nat.le_refl j) hphase
    exact Phase.satisfiedBy_of_reaches hreached hreaches hq'

/-- In a run in which no ring is forgotten, whatever the store answers:

* from one moment to the next the phase of a pair stays, or goes further on by moves, and never from
  a final phase; a pair that is no longer tracked had not come further than the first phase;
* if a call comes to the answer that a quorum is met, it has read of each participant that it has
  reached the required phase, and from then on each of them is tracked, and in a phase that has
  reached the required one unless it has given up since it was read.
-/
theorem quorum_stays_met {t : Tracker} (ht : AtRest t)
    (hkeep : ∀ i ring, events i ≠ .start (.forget ring)) :
    (∀ i pair p, (of t).phaseAt? events i pair = some p →
      ((of t).phaseAt? events (i + 1) pair = none ∧ p = .initial) ∨
        ∃ q, (of t).phaseAt? events (i + 1) pair = some q ∧
          (q = p ∨ p ≠ .closed ∧ p ≠ .abandoned ∧
            Relation.TransGen (fun a b : Phase => a.canMove b = true) p q)) ∧
    ∀ m ring participants required, events m = .start (.lagging ring participants required) →
      ∀ call, call = ((of t).run events m).activities.length →
        ∀ i, m < i → ((of t).run events i).QuorumMet call →
          ∀ who ∈ participants, ∃ k < i, ∃ cell seen,
            (of t).ReadsAt events call ⟨ring, who⟩ cell seen k ∧
            (of t).phaseAt? events k ⟨ring, who⟩ = some seen ∧
            required.satisfiedBy seen = true ∧
            ∀ j, k ≤ j → ∃ q, (of t).phaseAt? events j ⟨ring, who⟩ = some q ∧
              ((∀ l, k ≤ l → l < j → ¬ (of t).GivesUpAt events l ⟨ring, who⟩) →
                required.satisfiedBy q = true) := by
  have hs : ∀ i, ((of t).run events i).Secured := secured_run ht hkeep
  constructor
  · intro i pair p hp
    rcases (hs i).held?_after (hkeep i) hp with hgone | ⟨q, hq, hreaches⟩
    · exact Or.inl hgone
    · refine Or.inr ⟨q, hq, ?_⟩
      rcases Relation.reflTransGen_iff_eq_or_transGen.1 hreaches with hsame | hmoves
      · exact Or.inl hsame
      · have hleaves : p.isFinal = false := Phase.isFinal_eq_false_of_moves hmoves
        have hclosed : p ≠ .closed := by
          rintro rfl
          cases hleaves
        have habandoned : p ≠ .abandoned := by
          rintro rfl
          cases hleaves
        exact Or.inr ⟨hclosed, habandoned, hmoves⟩
  · rintro m ring participants required hm _ rfl i hi hmet who hwho
    obtain ⟨a, ha, hsurveys⟩ := surveying_run hs hm hi
    -- The call is finished, and has found nobody.
    obtain rfl := Option.some.inj (ha.symm.trans (History.activity_of_outcome? hmet))
    obtain ⟨k, hk, cell, seen, hread, hfixed, hreached⟩ := hsurveys rfl who hwho
    have hseen : (of t).phaseAt? events k ⟨ring, who⟩ = some seen := hfixed.held? (hs k)
    exact ⟨k, hk, cell, seen, hread, hseen, hreached, fun j hkj =>
      hfixed.satisfiedBy hs hreached hkj⟩

/-! Of two participants the first moves on while the second is read, the second gives up once the
quorum is met, and records older than what is held are loaded. -/

def twoTracked : Tracker :=
  ⟨[⟨History.trackedPair, .ready1, none, true⟩, ⟨History.newPair, .ready2, none, true⟩], .empty⟩

def surveyedOnTheMove : List History.Event :=
  [.start (.lagging ⟨7, 3, 1⟩ ["s1", "s2"] .ready1), .move 0 .done, .move 0 .done,
    .start (.transition History.trackedPair .ready2), .move 1 .done, .move 1 .done, .move 1 .done,
    .move 1 .done, .move 0 .done, .move 0 .done, .move 0 .done, .move 0 .done,
    .start (.transition History.newPair .abandoned), .move 2 .done, .move 2 .done, .move 2 .done,
    .move 2 .done, .start .recover,
    .move 3 (.loaded [⟨History.trackedPair, .initial⟩, ⟨History.newPair, .localComplete1⟩]),
    .move 3 .done, .move 3 .done, .move 3 .done, .move 3 .done, .move 3 .done]

/-- The schedule that goes on forever with a step that a finished call does not take. -/
def surveyed (i : Nat) : History.Event :=
  surveyedOnTheMove[i]?.getD (.move 0 .done)

theorem atRest_twoTracked : AtRest twoTracked where
  free := by decide
  single := Tracker.single_of_nodup (by decide)

theorem quorum_stays_met_surveyed :
    AtRest twoTracked ∧ (∀ i ring, surveyed i ≠ .start (.forget ring)) ∧
      ((of twoTracked).run surveyed 12).QuorumMet 0 ∧
      Relation.TransGen (fun a b : Phase => a.canMove b = true) .ready2 .abandoned ∧
      ∃ k < 12, ∃ cell seen, (of twoTracked).ReadsAt surveyed 0 ⟨⟨7, 3, 1⟩, "s1"⟩ cell seen k ∧
        ∃ q, (of twoTracked).phaseAt? surveyed 24 ⟨⟨7, 3, 1⟩, "s1"⟩ = some q ∧
          Phase.ready1.satisfiedBy q = true := by
  have hkeep : ∀ i ring, surveyed i ≠ .start (.forget ring) := by
    intro i ring
    by_cases hi : i < surveyedOnTheMove.length
    · have hnone : ∀ event ∈ surveyedOnTheMove, event ≠ .start (.forget ring) := by
        simp [surveyedOnTheMove]
      have hevent : surveyed i = surveyedOnTheMove[i] := by
        rw [surveyed, List.getElem?_eq_getElem hi]
        rfl
      rw [hevent]
      exact hnone _ (List.getElem_mem hi)
    · rw [surveyed, List.getElem?_eq_none (Nat.le_of_not_lt hi)]
      simp
  have hmet : ((of twoTracked).run surveyed 12).QuorumMet 0 := rfl
  obtain ⟨hmoves, hquorums⟩ := quorum_stays_met atRest_twoTracked hkeep
  refine ⟨atRest_twoTracked, hkeep, hmet, ?_, ?_⟩
  · rcases hmoves 16 History.newPair .ready2 rfl with ⟨-, h⟩ | ⟨q, hq, h⟩
    · cases h
    · obtain rfl : Phase.abandoned = q := Option.some.inj hq
      rcases h with h | ⟨-, -, h⟩
      · cases h
      · exact h
  · obtain ⟨k, hk, cell, seen, hread, -, -, hstays⟩ :=
      hquorums 0 ⟨7, 3, 1⟩ ["s1", "s2"] .ready1 rfl 0 rfl 12 (by decide) hmet "s1" (by simp)
    obtain ⟨q, hq, hreached⟩ := hstays 24 (Nat.le_of_lt (Nat.lt_trans hk (by decide)))
    have hnever : ∀ l ≤ 24, ((of twoTracked).run surveyed l).tracker.held? ⟨⟨7, 3, 1⟩, "s1"⟩ ≠
        some .abandoned := by decide +kernel
    have hstaysIn : ∀ l < 24, ¬ (of twoTracked).GivesUpAt surveyed l ⟨⟨7, 3, 1⟩, "s1"⟩ :=
      fun l hl hgone => hnever (l + 1) hl hgone.2
    exact ⟨k, hk, cell, seen, hread, q, hq, hreached fun l _ hl => hstaysIn l hl⟩

end Session

end ReplicaRing
