import ReplicaRing.Proofs.Trackers.Coherence

/-!
# Schedules

A schedule names for each moment the call that is made then, or the call that takes a step and what
the store answers it. `Session.run` follows a schedule. Nothing is asked of the answers: the store
may refuse what it likes, and what is loaded from it need not be what the tracker has saved.

As long as no ring is forgotten, that much is still true of every session of a run
(`Session.Secured`): a pair has one live cell at most, and who has a lock is the only one to write
to the cell. So the phase of a pair only goes further on (`Session.Secured.held?_after`). A pair whose
cell will not be withdrawn any more stays tracked in that cell (`Session.Fixed`).
-/

namespace ReplicaRing

namespace Session

/-! ### Following a schedule -/

/-- A session after an event. An event that is not possible, such as a step of a call that has to
wait for a lock, changes nothing. -/
def after (s : Session) : History.Event → Session
  | .start call => s.start call
  | .move call reply => (s.step? call reply).getD s

/-- The session that a schedule leads to by a moment. -/
def run (s : Session) (events : Nat → History.Event) : Nat → Session
  | 0 => s
  | i + 1 => (s.run events i).after (events i)

/-- An event makes a call, or lets one take a step, or changes nothing. -/
theorem after_cases (s : Session) (event : History.Event) :
    s.after event = s ∨ (∃ call, event = .start call ∧ s.after event = s.start call) ∨
      ∃ n a reply t next, s.activities[n]? = some a ∧ a.Moves n s.tracker reply t next ∧
        s.after event = ⟨t, s.activities.set n next⟩ := by
  cases event with
  | start call => exact Or.inr (Or.inl ⟨call, rfl, rfl⟩)
  | move n reply =>
    cases hstep : s.step? n reply with
    | none =>
      left
      simp [after, hstep]
    | some s' =>
      right; right
      obtain ⟨a, ha, hnext⟩ := Option.bind_eq_some_iff.1 hstep
      obtain ⟨⟨t, next⟩, hmoves, rfl⟩ := Option.map_eq_some_iff.1 hnext
      have hafter : s.after (.move n reply) = ⟨t, s.activities.set n next⟩ := by
        simp [after, hstep]
      exact ⟨n, a, reply, t, next, ha, Activity.moves_of_step? hmoves, hafter⟩

end Session

/-! ### What a call relies on -/

namespace Activity

/-- The place of the cell that a call has made and whose pair it has still to save, or to take out
again. -/
def made? : Activity → Option Nat
  | savingNew _ cell | withdrawing _ cell _ => some cell
  | _ => none

theorem made?_answer (question : Question) (pair : Participation) (seen : Option Phase) :
    (question.answer pair seen).made? = none := by
  cases question with
  | phase => rfl
  | lagging ring required rest found => cases rest <;> rfl

theorem made?_start (call : Call) : call.start.made? = none := by
  cases call with
  | lagging ring participants required => cases participants <;> rfl
  | _ => rfl

/-- What a call relies on in the midst of an activity, whatever the store has told it. No ring is
being forgotten. -/
def Secured (t : Tracker) (me : Nat) : Activity → Prop
  | savingNew pair cell | withdrawing pair cell _ =>
    t.cells[cell]? = some ⟨pair, .initial, some me, true⟩
  | checkingMove _ _ cell => ∃ c : Cell, t.cells[cell]? = some c ∧ c.holder = some me
  | savingMove _ target cell =>
    ∃ c : Cell, t.cells[cell]? = some c ∧ c.holder = some me ∧ c.phase.canMove target = true
  | reading pair cell _ | confirming pair cell _ _ =>
    ∃ c : Cell, t.cells[cell]? = some c ∧ c.pair = pair
  | gathering _ | lockingAll .. | deleting .. | clearing .. => False
  | _ => True

/-- What goes on after an answer relies on nothing. -/
theorem secured_answer (t : Tracker) (me : Nat) (question : Question) (pair : Participation)
    (seen : Option Phase) : (question.answer pair seen).Secured t me := by
  cases question with
  | phase => trivial
  | lagging ring required rest found => cases rest <;> trivial

theorem secured_start (t : Tracker) (me : Nat) {call : Call} (h : ∀ ring, call ≠ .forget ring) :
    call.start.Secured t me := by
  cases call with
  | forget ring => exact absurd rfl (h ring)
  | lagging ring participants required => cases participants <;> trivial
  | _ => trivial

end Activity

/-! ### What a step makes of a cell -/

/-- What a step of the call `n` makes of a cell: the pair stays, the phase goes further on if at all,
a dead cell stays dead, and a cell that another call has locked stays as it is. -/
structure Cell.Onward (n : Nat) (c c' : Cell) : Prop where
  pair : c'.pair = c.pair
  phase : c.phase.Reaches c'.phase
  dead : c'.live = true → c.live = true
  spared : c' = c ∨ c.OpenTo n

namespace Cell.Onward

variable {n : Nat} {c c' c'' : Cell}

theorem refl (n : Nat) (c : Cell) : c.Onward n c :=
  ⟨rfl, .refl, id, Or.inl rfl⟩

theorem trans (h : c.Onward n c') (h' : c'.Onward n c'') : c.Onward n c'' where
  pair := h'.pair.trans h.pair
  phase := h.phase.trans h'.phase
  dead hlive := h.dead (h'.dead hlive)
  spared := by
    rcases h.spared with rfl | hopen
    · exact h'.spared
    · exact Or.inr hopen

/-- The lock of a cell changes hands, from nobody or from the call that takes the step. -/
theorem relock (hopen : c.OpenTo n) (holder : Option Nat) :
    c.Onward n { c with holder := holder } :=
  ⟨rfl, .refl, id, Or.inr hopen⟩

end Cell.Onward

/-- What another call relies on is still true after a step. -/
theorem Activity.Secured.of_onward {n m : Nat} {t t' : Tracker} {b : Activity}
    (hb : b.Secured t m) (hm : m ≠ n) (hcells : ∀ (i : Nat) (c : Cell), t.cells[i]? = some c →
      ∃ c', t'.cells[i]? = some c' ∧ c.Onward n c') : b.Secured t' m := by
  have hkeep : ∀ (i : Nat) (c : Cell), t.cells[i]? = some c → c.holder = some m →
      t'.cells[i]? = some c := by
    intro i c hc hholder
    obtain ⟨c', hc', honward⟩ := hcells i c hc
    rcases honward.spared with rfl | hopen
    · exact hc'
    · exact absurd (hopen m hholder) hm
  have hpair : ∀ (pair : Participation) (i : Nat),
      (∃ c : Cell, t.cells[i]? = some c ∧ c.pair = pair) →
        ∃ c' : Cell, t'.cells[i]? = some c' ∧ c'.pair = pair := by
    rintro _ i ⟨c, hc, rfl⟩
    obtain ⟨c', hc', honward⟩ := hcells i c hc
    exact ⟨c', hc', honward.pair⟩
  cases b with
  | savingNew pair cell => exact hkeep cell _ hb rfl
  | withdrawing pair cell reason => exact hkeep cell _ hb rfl
  | checkingMove pair target cell =>
    obtain ⟨c, hc, hholder⟩ := hb
    exact ⟨c, hkeep cell c hc hholder, hholder⟩
  | savingMove pair target cell =>
    obtain ⟨c, hc, hholder, hmove⟩ := hb
    exact ⟨c, hkeep cell c hc hholder, hholder, hmove⟩
  | reading pair cell question => exact hpair pair cell hb
  | confirming pair cell seen question => exact hpair pair cell hb
  | gathering | lockingAll | deleting | clearing => exact hb.elim
  | _ => trivial

namespace Session

/-- What holds of a session whatever the store has answered, if no ring is forgotten. -/
structure Secured (s : Session) : Prop where
  secured : ∀ (n : Nat) (a : Activity), s.activities[n]? = some a → a.Secured s.tracker n
  single : s.tracker.Single

/-- A pair is tracked at a place, in a cell that nobody is going to withdraw. -/
structure Fixed (s : Session) (i : Nat) (pair : Participation) (p : Phase) : Prop where
  cell : ∃ c : Cell, s.tracker.cells[i]? = some c ∧ c.live = true ∧ c.pair = pair ∧ c.phase = p
  saved : ∀ a ∈ s.activities, a.made? ≠ some i

variable {s : Session} {n : Nat} {a next : Activity} {reply : Reply} {t' : Tracker}

/-- Who has made a cell and has still to save it has the lock of it. -/
theorem Secured.holder_of_made (hs : s.Secured) (hn : s.activities[n]? = some a) {i : Nat}
    (hmade : a.made? = some i) :
    ∃ pair, s.tracker.cells[i]? = some ⟨pair, .initial, some n, true⟩ := by
  have hsecured := hs.secured n a hn
  cases a with
  | savingNew pair cell | withdrawing pair cell =>
    obtain rfl := Option.some.inj hmade
    exact ⟨pair, hsecured⟩
  | _ => cases hmade

/-- An update of one cell that leads it further on does so for all cells. -/
theorem exists_onward_of_update {t : Tracker} {k : Nat} {f : Cell → Cell}
    (hf : ∀ c, t.cells[k]? = some c → c.Onward n (f c) ∧ (c.live = true → (f c).live = true))
    {i : Nat} {c : Cell} (hc : t.cells[i]? = some c) :
    ∃ c', (t.update k f).cells[i]? = some c' ∧ c.Onward n c' ∧
      (c.live = true → c'.live = true) := by
  rw [Tracker.cells_update, hc]
  by_cases hi : i = k
  · subst hi
    exact ⟨f c, by simp, hf c hc⟩
  · exact ⟨c, by simp [hi], .refl n c, id⟩

/-- Who holds the lock of a cell leads all cells further on by leaving it. -/
theorem exists_onward_of_unlock {t : Tracker} {k : Nat} {d : Cell} (hd : t.cells[k]? = some d)
    (hholder : d.holder = some n) {i : Nat} {c : Cell} (hc : t.cells[i]? = some c) :
    ∃ c', (t.unlock k).cells[i]? = some c' ∧ c.Onward n c' ∧
      (c.live = true → c'.live = true) := by
  refine exists_onward_of_update (fun e he => ?_) hc
  obtain rfl := Option.some.inj (he.symm.trans hd)
  exact ⟨.relock (Cell.openTo_of_mine hholder) none, id⟩

/-- Who withdraws a pair takes out its own cell only: any other cell of the pair is dead. -/
theorem Secured.exists_onward_of_withdraw (hs : s.Secured) {pair : Participation} {cell : Nat}
    (hcell : s.tracker.cells[cell]? = some ⟨pair, .initial, some n, true⟩) {i : Nat} {c : Cell}
    (hc : s.tracker.cells[i]? = some c) :
    ∃ c', ((s.tracker.drop fun c => c.pair = pair).unlock cell).cells[i]? = some c' ∧
      c.Onward n c' ∧ (c.live = true → i ≠ cell → c'.live = true) := by
  rw [Tracker.unlock, Tracker.cells_update, Tracker.cells_drop, hc]
  refine ⟨_, rfl, ?_⟩
  by_cases hi : i = cell
  · subst hi
    obtain rfl := Option.some.inj (hc.symm.trans hcell)
    simp only [if_pos, decide_true]
    exact ⟨⟨rfl, .refl, fun _ => rfl, Or.inr (Cell.openTo_of_mine rfl)⟩, fun _ h => absurd rfl h⟩
  · simp only [if_neg hi]
    split
    · rename_i hpair
      have hdead : c.live = false := by
        by_contra hlive
        rw [Bool.not_eq_false] at hlive
        exact hi (hs.single i cell c _ hc hcell hlive rfl (of_decide_eq_true hpair))
      have hsame : ({ c with live := false } : Cell) = c := by
        rw [← hdead]
      rw [hsame]
      exact ⟨.refl n c, fun hlive _ => hlive⟩
    · exact ⟨.refl n c, fun hlive _ => hlive⟩

/-- A step leads every cell further on, and a live cell stays live unless the call that made it takes
it out again. -/
theorem Secured.exists_onward (hs : s.Secured) (hn : s.activities[n]? = some a)
    (hmoves : a.Moves n s.tracker reply t' next) {i : Nat} {c : Cell}
    (hc : s.tracker.cells[i]? = some c) :
    ∃ c', t'.cells[i]? = some c' ∧ c.Onward n c' ∧
      (c.live = true → a.made? ≠ some i → c'.live = true) := by
  have hsecured := hs.secured n a hn
  -- All steps but the withdrawal leave live cells live.
  have hkept : (∃ c', t'.cells[i]? = some c' ∧ c.Onward n c' ∧
      (c.live = true → c'.live = true)) → ∃ c', t'.cells[i]? = some c' ∧ c.Onward n c' ∧
        (c.live = true → a.made? ≠ some i → c'.live = true) := fun ⟨c', hc', honward, hlive⟩ =>
    ⟨c', hc', honward, fun h _ => hlive h⟩
  cases hmoves with
  | withdraw =>
    obtain ⟨c', hc', honward, hlive⟩ := hs.exists_onward_of_withdraw hsecured hc
    exact ⟨c', hc', honward, fun h hmade => hlive h fun hi => hmade (congrArg some hi.symm)⟩
  | make | mergeMissing =>
    have hlt := (List.getElem?_eq_some_iff.1 hc).1
    refine hkept ⟨c, ?_, .refl n c, id⟩
    rw [Tracker.cells_add, if_neg (Nat.ne_of_lt hlt), hc]
  | saveNew => exact hkept (exists_onward_of_unlock hsecured rfl hc)
  | lockMoved found free =>
    refine hkept (exists_onward_of_update (fun d hd => ?_) hc)
    obtain rfl := Option.some.inj (hd.symm.trans found)
    exact ⟨.relock (Cell.openTo_of_free free n) (some n), id⟩
  | rejectDead | rejectMove =>
    obtain ⟨d, hd, hholder⟩ := hsecured
    exact hkept (exists_onward_of_unlock hd hholder hc)
  | refuseMove =>
    obtain ⟨d, hd, hholder, -⟩ := hsecured
    exact hkept (exists_onward_of_unlock hd hholder hc)
  | @saveMove pair target cell =>
    obtain ⟨d, hd, hholder, hmove⟩ := hsecured
    -- The phase is set, then the lock is left.
    obtain ⟨c', hc', honward, hlive⟩ := exists_onward_of_update (n := n) (k := cell)
      (f := fun c => { c with phase := target }) (fun e he => by
        obtain rfl := Option.some.inj (he.symm.trans hd)
        exact ⟨⟨rfl, .single hmove, id, Or.inr (Cell.openTo_of_mine hholder)⟩, id⟩) hc
    have hd' : (s.tracker.update cell fun c => { c with phase := target }).cells[cell]? =
        some { d with phase := target } := by
      rw [Tracker.cells_update, hd]
      simp
    obtain ⟨c'', hc'', honward', hlive'⟩ := exists_onward_of_unlock hd' hholder hc'
    exact hkept ⟨c'', hc'', honward.trans honward', fun h => hlive' (hlive h)⟩
  | adopt free behind =>
    obtain ⟨d, hd, hfree, rfl⟩ := Tracker.peek?_eq_some.1 free
    refine hkept (exists_onward_of_update (fun e he => ?_) hc)
    obtain rfl := Option.some.inj (he.symm.trans hd)
    exact ⟨⟨rfl, Phase.reaches_of_adopts behind, id, Or.inr (Cell.openTo_of_free hfree n)⟩, id⟩
  | gather | lockedAll | lockNext | delete | refuseDelete | clear => exact hsecured.elim
  | _ => exact hkept ⟨c, hc, .refl n c, id⟩

/-- The call that takes a step relies on what it has found. -/
theorem Secured.secured_of_moves (hs : s.Secured) (hn : s.activities[n]? = some a)
    (hmoves : a.Moves n s.tracker reply t' next) : next.Secured t' n := by
  have hsecured := hs.secured n a hn
  cases hmoves with
  | @make pair =>
    show (s.tracker.add _).cells[s.tracker.cells.length]? = _
    rw [Tracker.cells_add, if_pos rfl]
  | refuseNew => exact hsecured
  | @lockMoved pair target cell _ c found free =>
    refine ⟨{ c with holder := some n }, ?_, rfl⟩
    rw [Tracker.cells_update, found]
    simp
  | acceptMove found live allowed =>
    obtain ⟨d, hd, hholder⟩ := hsecured
    obtain rfl := Option.some.inj (found.symm.trans hd)
    exact ⟨_, found, hholder, allowed⟩
  | findAsked found =>
    obtain ⟨c, hc, -, hpair⟩ := Tracker.find?_eq_some found
    exact ⟨c, hc, hpair⟩
  | readAsked => exact hsecured
  | missAsked | confirmLive | confirmDead => exact Activity.secured_answer ..
  | gather | lockedAll | lockNext | delete | refuseDelete | clear => exact hsecured.elim
  | _ => trivial

theorem Secured.of_moves (hs : s.Secured) (hn : s.activities[n]? = some a)
    (hmoves : a.Moves n s.tracker reply t' next) :
    Secured ⟨t', s.activities.set n next⟩ where
  secured m b hb := by
    rw [getElem?_set_of_some hn] at hb
    split at hb
    · rename_i hm
      obtain rfl := Option.some.inj hb
      rw [hm]
      exact hs.secured_of_moves hn hmoves
    · rename_i hm
      refine (hs.secured m b hb).of_onward hm fun i c hc => ?_
      obtain ⟨c', hc', honward, -⟩ := hs.exists_onward hn hmoves hc
      exact ⟨c', hc', honward⟩
  single := hmoves.single hs.single

/-- No event but the forgetting of a ring harms what calls rely on. -/
theorem Secured.after (hs : s.Secured) {event : History.Event}
    (hevent : ∀ ring, event ≠ .start (.forget ring)) : (s.after event).Secured := by
  rcases s.after_cases event with heq | ⟨call, rfl, heq⟩ | ⟨n, a, reply, t, next, hn, hmoves, heq⟩
  · rw [heq]
    exact hs
  · rw [heq]
    refine ⟨fun m b hb => ?_, hs.single⟩
    rcases getElem?_concat_eq_some hb with hb | ⟨-, rfl⟩
    · exact hs.secured m b hb
    · exact Activity.secured_start _ _ fun ring hring => hevent ring (by rw [hring])
  · rw [heq]
    exact hs.of_moves hn hmoves

/-- After an event the phase of a pair has gone further on, or the pair is no longer tracked; then it
was still in the first phase. -/
theorem Secured.held?_after (hs : s.Secured) {event : History.Event} {pair : Participation}
    {p : Phase} (hevent : ∀ ring, event ≠ .start (.forget ring))
    (hp : s.tracker.held? pair = some p) :
    ((s.after event).tracker.held? pair = none ∧ p = .initial) ∨
      ∃ q, (s.after event).tracker.held? pair = some q ∧ p.Reaches q := by
  rcases s.after_cases event with heq | ⟨call, -, heq⟩ | ⟨n, a, reply, t, next, hn, hmoves, heq⟩
  · rw [heq]
    exact Or.inr ⟨p, hp, .refl⟩
  · rw [heq]
    exact Or.inr ⟨p, hp, .refl⟩
  · have hs' : (s.after event).Secured := hs.after hevent
    rw [heq] at hs' ⊢
    obtain ⟨i, c, hc, hlive, hpair, rfl⟩ := hs.single.held?_eq_some_iff.1 hp
    by_cases hmade : a.made? = some i
    · -- Only the cell that the call has made itself can be withdrawn.
      obtain ⟨_, hcell⟩ := hs.holder_of_made hn hmade
      obtain rfl := Option.some.inj (hc.symm.trans hcell)
      cases t.held? pair with
      | none => exact Or.inl ⟨rfl, rfl⟩
      | some q => exact Or.inr ⟨q, rfl, Phase.reaches_of_initial q⟩
    · obtain ⟨c', hc', honward, hlive'⟩ := hs.exists_onward hn hmoves hc
      have hpair' : c'.pair = pair := honward.pair.trans hpair
      exact Or.inr ⟨c'.phase,
        hs'.single.held?_eq_some_iff.2 ⟨i, c', hc', hlive' hlive hmade, hpair', rfl⟩, honward.phase⟩

/-- No event brings a dead cell back. -/
theorem isLive_of_after (s : Session) (event : History.Event) {i : Nat} {c : Cell}
    (hc : s.tracker.cells[i]? = some c) (hlive : (s.after event).tracker.isLive i = true) :
    s.tracker.isLive i = true := by
  rcases s.after_cases event with heq | ⟨call, -, heq⟩ | ⟨n, a, reply, t, next, -, hmoves, heq⟩
  · rwa [heq] at hlive
  · rwa [heq] at hlive
  · rw [heq] at hlive
    obtain ⟨c', hc', -, hold⟩ := hmoves.old hc
    have hclive : c'.live = true := by simpa [Tracker.isLive, hc'] using hlive
    simpa [Tracker.isLive, hc] using hold hclive

/-! ### Pairs that stay tracked -/

theorem Fixed.held? {i : Nat} {pair : Participation} {p : Phase} (h : s.Fixed i pair p)
    (hs : s.Secured) : s.tracker.held? pair = some p := by
  obtain ⟨c, hc, hlive, hpair, hphase⟩ := h.cell
  exact hs.single.held?_eq_some_iff.2 ⟨i, c, hc, hlive, hpair, hphase⟩

/-- A live cell whose lock is free will not be withdrawn. -/
theorem Secured.fixed_of_free (hs : s.Secured) {i : Nat} {c : Cell}
    (hc : s.tracker.cells[i]? = some c) (hlive : c.live = true) (hfree : c.holder = none) :
    s.Fixed i c.pair c.phase where
  cell := ⟨c, hc, hlive, rfl, rfl⟩
  saved a ha hmade := by
    obtain ⟨n, hn⟩ := List.mem_iff_getElem?.1 ha
    obtain ⟨pair, hcell⟩ := hs.holder_of_made hn hmade
    obtain rfl := Option.some.inj (hc.symm.trans hcell)
    cases hfree

/-- A step gives up no pair whose cell will not be withdrawn. -/
theorem Fixed.of_moves {i : Nat} {pair : Participation} {p : Phase} (h : s.Fixed i pair p)
    (hs : s.Secured) (hn : s.activities[n]? = some a)
    (hmoves : a.Moves n s.tracker reply t' next) :
    ∃ q, Fixed ⟨t', s.activities.set n next⟩ i pair q ∧ p.Reaches q := by
  obtain ⟨c, hc, hlive, rfl, rfl⟩ := h.cell
  have hmade : a.made? ≠ some i := h.saved a (List.mem_of_getElem? hn)
  obtain ⟨c', hc', honward, hlive'⟩ := hs.exists_onward hn hmoves hc
  -- What the call has made by now is another cell.
  have hnext : next.made? ≠ some i := by
    have hlt := (List.getElem?_eq_some_iff.1 hc).1
    cases hmoves with
    | make =>
      intro hi
      have := Option.some.inj hi
      omega
    | refuseNew => exact hmade
    | missAsked | confirmLive | confirmDead =>
      rw [Activity.made?_answer]
      exact (Option.some_ne_none i).symm
    | _ => exact (Option.some_ne_none i).symm
  refine ⟨c'.phase, ⟨⟨c', hc', hlive' hlive hmade, honward.pair, rfl⟩, fun b hb => ?_⟩, honward.phase⟩
  rcases List.mem_or_eq_of_mem_set hb with hb | rfl
  · exact h.saved b hb
  · exact hnext

theorem Fixed.after {i : Nat} {pair : Participation} {p : Phase} (h : s.Fixed i pair p)
    (hs : s.Secured) (event : History.Event) :
    ∃ q, (s.after event).Fixed i pair q ∧ p.Reaches q := by
  rcases s.after_cases event with heq | ⟨call, -, heq⟩ | ⟨n, a, reply, t, next, hn, hmoves, heq⟩
  · rw [heq]
    exact ⟨p, h, .refl⟩
  · rw [heq]
    refine ⟨p, ⟨h.cell, fun b hb => ?_⟩, .refl⟩
    rcases List.mem_append.1 hb with hb | hb
    · exact h.saved b hb
    · obtain rfl := List.mem_singleton.1 hb
      rw [Activity.made?_start]
      exact (Option.some_ne_none i).symm
  · rw [heq]
    exact h.of_moves hs hn hmoves

/-! ### Whole runs -/

/-- Nobody holds a lock, and no pair is tracked twice. -/
structure AtRest (t : Tracker) : Prop where
  free : ∀ c ∈ t.cells, c.holder = none
  single : t.Single

variable {t : Tracker} {events : Nat → History.Event}

theorem secured_run (ht : AtRest t) (hkeep : ∀ i ring, events i ≠ .start (.forget ring)) (i : Nat) :
    ((Session.of t).run events i).Secured := by
  induction i with
  | zero =>
    refine ⟨fun n a hn => ?_, ht.single⟩
    simp [run, Session.of] at hn
  | succ i ih => exact ih.after (hkeep i)

/-- From a moment on, the phase of a pair that stays tracked goes further on. -/
theorem Fixed.run (hsecured : ∀ i, (s.run events i).Secured) {cell i j : Nat}
    {pair : Participation} {p : Phase} (h : (s.run events i).Fixed cell pair p) (hij : i ≤ j) :
    ∃ q, (s.run events j).Fixed cell pair q ∧ p.Reaches q := by
  induction hij with
  | refl => exact ⟨p, h, .refl⟩
  | @step j _ ih =>
    obtain ⟨q, hq, hreaches⟩ := ih
    obtain ⟨q', hq', hfurther⟩ := hq.after (hsecured j) (events j)
    exact ⟨q', hq', hreaches.trans hfurther⟩

end Session

end ReplicaRing
