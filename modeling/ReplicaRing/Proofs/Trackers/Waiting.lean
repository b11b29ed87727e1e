import ReplicaRing.Proofs.Trackers.Records

/-!
# Calls that keep memory and store in step

Any number of calls, none of which forgets a ring, run in any order
(`History.inStep_of_interleaving`). What is saved for each pair is a way through the phases. A
transition that comes to its end by the move has saved it, and one that fails has saved nothing.
Whenever no call is in flight, memory and store are in step.

A transition may find the cell of a pair that has still to be saved, and wait for its lock
(`History.WaitsOn`). If the pair cannot be saved, the transition finds the cell dead once it has the
lock (`Session.Doomed`), and nobody keeps the lock of a dead cell.
-/

namespace ReplicaRing

variable {n m : Nat} {pair : Participation} {target : Phase} {cell : Nat}

/-- A dead cell stays dead. -/
theorem Activity.Moves.dead {reply : Reply} {t t' : Tracker} {a next : Activity}
    (hmoves : a.Moves n t reply t' next) {c : Cell} (hc : t.cells[cell]? = some c)
    (hdead : c.live = false) : ∃ c' : Cell, t'.cells[cell]? = some c' ∧ c'.live = false := by
  obtain ⟨c', hc', -, hlive⟩ := hmoves.old hc
  refine ⟨c', hc', ?_⟩
  cases hlive' : c'.live with
  | false => rfl
  | true =>
    rw [hlive hlive'] at hdead
    cases hdead

namespace Session

/-- A transition is bound to be told that its pair is not tracked, or has been told so. -/
def Doomed (s : Session) (m : Nat) (pair : Participation) (target : Phase) (cell : Nat) : Prop :=
  (∃ c : Cell, s.tracker.cells[cell]? = some c ∧ c.live = false) ∧
    (s.activities[m]? = some (.lockingMove pair target cell) ∨
      s.activities[m]? = some (.checkingMove pair target cell) ∨
      s.activities[m]? = some (.untracked pair))

/-- A transition waits for the lock of a cell while the call that made it has still to save the
pair, or to take it out again. -/
def Waits (s : Session) (m n : Nat) (pair : Participation) (target : Phase) (cell : Nat) : Prop :=
  s.activities[m]? = some (.lockingMove pair target cell) ∧
    (s.activities[n]? = some (.savingNew pair cell) ∨
      ∃ reason, s.activities[n]? = some (.withdrawing pair cell reason))

/-- What can become of a transition that waits for the call that made the cell. -/
def Awaits (s : Session) (m n : Nat) (pair : Participation) (target : Phase) (cell : Nat) : Prop :=
  s.Waits m n pair target cell ∨ s.activities[n]? = some (.finished (.begun .initial)) ∨
    s.Doomed m pair target cell

variable {s : Session} {k : Nat} {a next : Activity} {reply : Reply} {t' : Tracker}

theorem getElem?_start {b : Activity} (hb : s.activities[k]? = some b) (call : Call) :
    (s.start call).activities[k]? = some b :=
  (List.getElem?_append_left (List.getElem?_eq_some_iff.1 hb).1).trans hb

theorem Doomed.start (hdoom : s.Doomed m pair target cell) (call : Call) :
    (s.start call).Doomed m pair target cell :=
  ⟨hdoom.1, hdoom.2.imp (getElem?_start · call) (Or.imp (getElem?_start · call)
    (getElem?_start · call))⟩

theorem Doomed.of_moves (hdoom : s.Doomed m pair target cell) (hk : s.activities[k]? = some a)
    (hmoves : a.Moves k s.tracker reply t' next) :
    Doomed ⟨t', s.activities.set k next⟩ m pair target cell := by
  obtain ⟨⟨c, hc, hdead⟩, hm⟩ := hdoom
  refine ⟨hmoves.dead hc hdead, ?_⟩
  simp only [getElem?_set_of_some hk]
  by_cases hkm : m = k
  · subst hkm
    simp only [if_pos]
    rcases hm with hm | hm | hm <;> obtain rfl := Option.some.inj (hk.symm.trans hm)
    · cases hmoves
      exact Or.inr (Or.inl rfl)
    · cases hmoves with
      | rejectDead => exact Or.inr (Or.inr rfl)
      | acceptMove found live | rejectMove found live =>
        obtain rfl := Option.some.inj (hc.symm.trans found)
        rw [hdead] at live
        cases live
    · exact absurd rfl (hmoves.ne_finished _)
  · simpa only [if_neg hkm] using hm

theorem Waits.of_moves (hs : s.Coherent) (hwaits : s.Waits m n pair target cell)
    (hk : s.activities[k]? = some a) (hmoves : a.Moves k s.tracker reply t' next) :
    Awaits ⟨t', s.activities.set k next⟩ m n pair target cell := by
  obtain ⟨hm, hn⟩ := hwaits
  have hheld : ∃ c : Cell, s.tracker.cells[cell]? = some c ∧ c.holder = some n ∧ c.pair = pair := by
    rcases hn with hn | ⟨reason, hn⟩ <;> exact ⟨_, (hs.grounded n _ hn).1, rfl, rfl⟩
  obtain ⟨c, hc, hholder, hpair⟩ := hheld
  have hactivity := getElem?_set_of_some hk next
  have hmn : m ≠ n := by
    rintro rfl
    rw [hm] at hn
    rcases hn with hn | ⟨reason, hn⟩ <;> cases hn
  by_cases hkm : m = k
  · -- The lock is not free.
    subst hkm
    obtain rfl := Option.some.inj (hk.symm.trans hm)
    cases hmoves with
    | lockMoved found free =>
      obtain rfl := Option.some.inj (hc.symm.trans found)
      rw [hholder] at free
      cases free
  · have hm' := (hactivity m).trans ((if_neg hkm).trans hm)
    by_cases hkn : n = k
    · subst hkn
      have hn' := (hactivity n).trans (if_pos rfl)
      rcases hn with hn | ⟨reason, hn⟩ <;> obtain rfl := Option.some.inj (hk.symm.trans hn)
      · cases hmoves with
        | saveNew => exact Or.inr (Or.inl hn')
        | refuseNew => exact Or.inl ⟨hm', Or.inr ⟨_, hn'⟩⟩
      · cases hmoves with
        | withdraw =>
          refine Or.inr (Or.inr ⟨⟨{ c with live := false, holder := none }, ?_, rfl⟩, Or.inl hm'⟩)
          refine (Tracker.cells_update ..).trans ?_
          rw [Tracker.cells_drop, hc]
          simp [hpair]
    · have hn' := (hactivity n).trans (if_neg hkn)
      refine Or.inl ⟨hm', hn.imp (fun h => hn'.trans h) ?_⟩
      rintro ⟨reason, h⟩
      exact ⟨reason, hn'.trans h⟩

theorem Awaits.of_moves (hs : s.Coherent) (hawaits : s.Awaits m n pair target cell)
    (hk : s.activities[k]? = some a) (hmoves : a.Moves k s.tracker reply t' next) :
    Awaits ⟨t', s.activities.set k next⟩ m n pair target cell := by
  rcases hawaits with hwaits | hbegun | hdoom
  · exact hwaits.of_moves hs hk hmoves
  · refine Or.inr (Or.inl ?_)
    refine (getElem?_set_of_some hk next n).trans ((if_neg ?_).trans hbegun)
    rintro rfl
    obtain rfl := Option.some.inj (hk.symm.trans hbegun)
    exact hmoves.ne_finished _ rfl
  · exact Or.inr (Or.inr (hdoom.of_moves hk hmoves))

theorem Awaits.start (hawaits : s.Awaits m n pair target cell) (call : Call) :
    (s.start call).Awaits m n pair target cell := by
  rcases hawaits with ⟨hm, hn⟩ | hbegun | hdoom
  · refine Or.inl ⟨getElem?_start hm call, hn.imp (getElem?_start · call) ?_⟩
    rintro ⟨reason, h⟩
    exact ⟨reason, getElem?_start h call⟩
  · exact Or.inr (Or.inl (getElem?_start hbegun call))
  · exact Or.inr (Or.inr (hdoom.start call))

end Session

namespace History

variable {h h' : History} {first : PhaseStore}

/-- A transition of a pair waits for the lock of a cell that a call to begin the pair holds. -/
def WaitsOn (h : History) (m n : Nat) (pair : Participation) : Prop :=
  ∃ (target : Phase) (cell : Nat) (c : Cell),
    h.session.activities[m]? = some (.lockingMove pair target cell) ∧
      h.session.tracker.cells[cell]? = some c ∧ c.holder = some n ∧
        ∃ p, h.calls[n]? = some (.begin p)

theorem WaitsOn.waits (hkept : Kept first h) (hwaits : h.WaitsOn m n pair) :
    ∃ target cell, h.session.Waits m n pair target cell := by
  obtain ⟨target, cell, c, hm, hc, hholder, p, hcall⟩ := hwaits
  obtain ⟨d, hd, hpair⟩ := hkept.coherent.grounded m _ hm
  obtain rfl := Option.some.inj (hc.symm.trans hd)
  obtain ⟨b, hb, hmem⟩ := hkept.coherent.locked cell c n hc hholder
  have hground := hkept.coherent.grounded n b hb
  have hserves := hkept.recorded.serves n _ b hcall hb
  refine ⟨target, cell, hm, ?_⟩
  cases b with
  | savingNew q i =>
    obtain rfl := List.mem_singleton.1 hmem
    obtain rfl := Option.some.inj (hc.symm.trans hground.1)
    obtain rfl : q = pair := hpair
    exact Or.inl hb
  | withdrawing q i reason =>
    obtain rfl := List.mem_singleton.1 hmem
    obtain rfl := Option.some.inj (hc.symm.trans hground.1)
    obtain rfl : q = pair := hpair
    exact Or.inr ⟨reason, hb⟩
  | checkingMove | savingMove | lockingAll | deleting | clearing => cases hserves
  | _ => cases hmem

theorem Kept.awaits_of_leadsTo (hkept : Kept first h) (hlead : LeadsTo h h') (hkeep : h'.Keeping)
    (hawaits : h.session.Awaits m n pair target cell) :
    h'.session.Awaits m n pair target cell := by
  induction hlead with
  | refl => exact hawaits
  | @tail h₁ h₂ hlead hstep ih =>
    have hbefore := hkeep.of_leadsTo (.single hstep)
    have hkept₁ := hkept.of_leadsTo hlead hbefore
    have hawaits := ih hbefore
    rcases step_cases hstep with ⟨call, rfl⟩ | ⟨k, a, reply, t, next, hk, -, hmoves, rfl⟩
    · exact hawaits.start call
    · exact hawaits.of_moves hkept₁.coherent hk hmoves

/-! ### Nobody keeps the lock of a dead cell -/

theorem step_of_step? {a next : Activity} {t : Tracker} {reply : Reply}
    (hk : h.session.activities[n]? = some a)
    (honest : h.session.tracker.store.MayAnswer a.request? reply)
    (hstep : a.step? n reply h.session.tracker = some (t, next)) :
    Step h ⟨⟨t, h.session.activities.set n next⟩, h.calls,
      h.saves ++ (Request.saved? a.request? reply).toList.map (Save.mk n)⟩ := by
  refine .move n reply hk honest ?_
  rw [Session.step?, hk, Option.bind_some, hstep]
  rfl

/-- Who has the lock of a dead cell leaves it and is rejected. -/
theorem exists_step_of_checking (hn : h.session.activities[n]? = some (.checkingMove pair target cell))
    {c : Cell} (hc : h.session.tracker.cells[cell]? = some c) (hdead : c.live = false) :
    ∃ h', Step h h' ∧ h'.calls = h.calls ∧
      h'.session = ⟨h.session.tracker.unlock cell, h.session.activities.set n (.untracked pair)⟩ := by
  have hstep : (Activity.checkingMove pair target cell).step? n .done h.session.tracker =
      some (h.session.tracker.unlock cell, .untracked pair) := by
    rw [Activity.step?, hc]
    simp [hdead]
  exact ⟨_, step_of_step? hn trivial hstep, rfl, rfl⟩

/-- Who waits for the lock of a dead cell takes it once it is free, and is rejected. -/
theorem exists_leadsTo_of_free (hm : h.session.activities[m]? = some (.lockingMove pair target cell))
    {c : Cell} (hc : h.session.tracker.cells[cell]? = some c) (hfree : c.holder = none)
    (hdead : c.live = false) :
    ∃ h', LeadsTo h h' ∧ h'.calls = h.calls ∧
      h'.session.activities[m]? = some (.untracked pair) := by
  let h₁ : History := ⟨⟨h.session.tracker.update cell fun c => { c with holder := some m },
    h.session.activities.set m (.checkingMove pair target cell)⟩, h.calls, h.saves ++ []⟩
  have hlock : Step h h₁ := by
    have hstep : (Activity.lockingMove pair target cell).step? m .done h.session.tracker =
        some (h.session.tracker.update cell fun c => { c with holder := some m },
          .checkingMove pair target cell) := by
      rw [Activity.step?, Tracker.lock?, Tracker.peek?_eq_some.2 ⟨c, hc, hfree, rfl⟩]
      rfl
    exact step_of_step? hm trivial hstep
  have hm' : h₁.session.activities[m]? = some (.checkingMove pair target cell) :=
    (Session.getElem?_set_of_some hm _ m).trans (if_pos rfl)
  have hc' : h₁.session.tracker.cells[cell]? = some { c with holder := some m } :=
    (Tracker.cells_update ..).trans (by rw [hc]; simp)
  obtain ⟨h', hstep, hcalls, hsession⟩ := exists_step_of_checking hm' hc' hdead
  refine ⟨h', .tail (.single hlock) hstep, hcalls, ?_⟩
  rw [hsession]
  exact (Session.getElem?_set_of_some hm' _ m).trans (if_pos rfl)

/-- Only a transition that has still to look can have the lock of a dead cell. -/
theorem Kept.exists_checkingMove (hkept : Kept first h) (hkeep : h.Keeping) {c : Cell}
    (hc : h.session.tracker.cells[cell]? = some c) (hdead : c.live = false)
    (hholder : c.holder = some k) :
    ∃ q goal, h.session.activities[k]? = some (.checkingMove q goal cell) := by
  obtain ⟨b, hb, hmem⟩ := hkept.coherent.locked cell c k hc hholder
  have hground := hkept.coherent.grounded k b hb
  have hforgets := hkept.recorded.forgets?_eq_none hkeep b (List.mem_of_getElem? hb)
  cases b with
  | savingNew | withdrawing =>
    obtain rfl := List.mem_singleton.1 hmem
    obtain rfl := Option.some.inj (hc.symm.trans hground.1)
    cases hdead
  | savingMove =>
    obtain rfl := List.mem_singleton.1 hmem
    obtain ⟨d, hd, -, -, hlive, -⟩ := hground
    obtain rfl := Option.some.inj (hc.symm.trans hd)
    rw [hdead] at hlive
    cases hlive
  | checkingMove q goal i =>
    obtain rfl := List.mem_singleton.1 hmem
    exact ⟨q, goal, hb⟩
  | lockingAll | deleting | clearing => cases hforgets
  | _ => cases hmem

/-- A doomed transition can come to its end. -/
theorem Kept.exists_leadsTo (hkept : Kept first h) (hkeep : h.Keeping)
    (hdoom : h.session.Doomed m pair target cell) :
    ∃ h', LeadsTo h h' ∧ h'.calls = h.calls ∧
      h'.session.activities[m]? = some (.untracked pair) := by
  obtain ⟨⟨c, hc, hdead⟩, hm | hm | hm⟩ := hdoom
  · cases hholder : c.holder with
    | none => exact exists_leadsTo_of_free hm hc hholder hdead
    | some k =>
      -- The holder of the lock leaves it first.
      obtain ⟨q, goal, hk⟩ := hkept.exists_checkingMove hkeep hc hdead hholder
      have hkm : m ≠ k := by
        rintro rfl
        rw [hm] at hk
        cases hk
      obtain ⟨h₁, hstep, hcalls, hsession⟩ := exists_step_of_checking hk hc hdead
      have hm₁ : h₁.session.activities[m]? = some (.lockingMove pair target cell) := by
        rw [hsession]
        exact (Session.getElem?_set_of_some hk _ m).trans ((if_neg hkm).trans hm)
      have hc₁ : h₁.session.tracker.cells[cell]? = some { c with holder := none } := by
        rw [hsession]
        exact (Tracker.cells_update ..).trans (by rw [hc]; simp)
      obtain ⟨h', hlead, hcalls', hend⟩ := exists_leadsTo_of_free hm₁ hc₁ rfl hdead
      exact ⟨h', .head hstep hlead, hcalls'.trans hcalls, hend⟩
  · obtain ⟨h', hstep, hcalls, hsession⟩ := exists_step_of_checking hm hc hdead
    refine ⟨h', .single hstep, hcalls, ?_⟩
    rw [hsession]
    exact (Session.getElem?_set_of_some hm _ m).trans (if_pos rfl)
  · exact ⟨h, .refl, rfl, hm⟩

/-! ### Interleavings -/

theorem activity_of_outcome? {s : Session} {outcome : Outcome} (ho : s.outcome? n = some outcome) :
    s.activities[n]? = some (.finished outcome) := by
  obtain ⟨a, ha, heq⟩ := Option.bind_eq_some_iff.1 ho
  cases a with
  | finished => rwa [Option.some.inj heq] at ha
  | _ => cases heq

theorem outcome?_of_activity {s : Session} {outcome : Outcome}
    (ha : s.activities[n]? = some (.finished outcome)) : s.outcome? n = some outcome := by
  rw [Session.outcome?, ha]
  rfl

/-- Calls of which none forgets a ring keep memory and store in step, in whichever order they run:

* what is saved for a pair goes from phase to phase by moves, from the phase that was stored at the
  beginning, or from the initial one for a new pair;
* a transition that comes to its move has saved it and nothing else, and one that fails has saved
  nothing;
* a transition that waited for a call to begin its pair, where that call failed, comes to nothing
  but the rejection of the pair, and can come to it;
* what is kept in memory is what is stored, whenever no call is in flight. -/
theorem inStep_of_interleaving {t : Tracker} (ht : t.InStep) {h : History}
    (hlead : LeadsTo (of t) h) (hkeep : h.Keeping) :
    (∀ pair, (h.way t.store pair).IsChain (fun a b => a.canMove b = true) ∧
      (t.store.phase? pair = none → ∀ p ∈ (h.phasesSaved pair).head?, p = .initial)) ∧
    (∀ n pair target outcome, h.calls[n]? = some (.transition pair target) →
      h.session.outcome? n = some outcome →
        outcome = .moved ∧ h.savedBy n = [⟨pair, target⟩] ∨
          (∃ e, outcome = .failed e) ∧ h.savedBy n = []) ∧
    (∀ m n pair, h.WaitsOn m n pair → ∀ h', LeadsTo h h' → h'.Keeping → ∀ e,
      h'.session.outcome? n = some (.failed e) →
        (∀ outcome, h'.session.outcome? m = some outcome →
          outcome = .failed (.pairNotFound pair.ring pair.participant)) ∧
        ∃ h'', LeadsTo h' h'' ∧ h''.calls = h'.calls ∧
          h''.session.outcome? m = some (.failed (.pairNotFound pair.ring pair.participant))) ∧
    (h.Settled → ∀ pair, h.session.tracker.held? pair = h.session.tracker.store.phase? pair) := by
  have hkept := (kept_of ht).of_leadsTo hlead hkeep
  refine ⟨fun pair => ⟨(hkept.walk pair).chain, (hkept.walk pair).head⟩, ?_, ?_, ?_⟩
  · intro n pair target outcome hcall ho
    have ha := activity_of_outcome? ho
    have hsaved := hkept.recorded.moves n pair target _ hcall ha
    have hserves := hkept.recorded.serves n _ _ hcall ha
    cases outcome with
    | moved => exact Or.inl ⟨rfl, hsaved.trans (if_pos rfl)⟩
    | failed e => exact Or.inr ⟨⟨e, rfl⟩, hsaved.trans (if_neg (by simp))⟩
    | _ => cases hserves
  · intro m n pair hwaits h' hlead' hkeep' e he
    obtain ⟨target, cell, hwaits⟩ := hwaits.waits hkept
    have hkept' := hkept.of_leadsTo hlead' hkeep'
    have hn := activity_of_outcome? he
    have hdoom : h'.session.Doomed m pair target cell := by
      rcases hkept.awaits_of_leadsTo hlead' hkeep' (Or.inl hwaits) with
        ⟨-, hn' | ⟨reason, hn'⟩⟩ | hn' | hdoom
      · cases hn.symm.trans hn'
      · cases hn.symm.trans hn'
      · cases hn.symm.trans hn'
      · exact hdoom
    constructor
    · intro outcome ho
      have hm := activity_of_outcome? ho
      rcases hdoom.2 with hm' | hm' | hm' <;> cases hm.symm.trans hm'
      rfl
    · obtain ⟨h'', hlead'', hcalls, hend⟩ := hkept'.exists_leadsTo hkeep' hdoom
      exact ⟨h'', hlead'', hcalls, outcome?_of_activity hend⟩
  · intro hsettled
    exact (hkept.coherent.inStep hsettled).same

/-! A pair is tracked and another is begun; a transition of it waits, the store refuses the new
pair, and a call recovers meanwhile. Then the pair is begun again and the first one moves on. -/

def trackedPair : Participation :=
  ⟨⟨7, 3, 1⟩, "s1"⟩

def newPair : Participation :=
  ⟨⟨7, 3, 1⟩, "s2"⟩

def oneTracked : Tracker :=
  ⟨[⟨trackedPair, .ready1, none, true⟩], PhaseStore.empty.save ⟨trackedPair, .ready1⟩⟩

def untilWait : List Event :=
  [.start (.begin newPair), .move 0 .done, .start (.transition newPair .ready1), .move 1 .done]

def fromRefusal : List Event :=
  [.start .recover, .move 2 (.loaded [⟨trackedPair, .ready1⟩]), .move 0 (.refused "full"),
    .move 2 .done, .move 2 .done, .move 2 .done, .move 0 .done, .move 1 .done, .move 1 .done,
    .start (.begin newPair), .move 3 .done, .move 3 .done,
    .start (.transition trackedPair .ready2), .move 4 .done, .move 4 .done, .move 4 .done,
    .move 4 .done]

def waiting : History :=
  ((of oneTracked).play? untilWait).getD (of oneTracked)

def settled : History :=
  (waiting.play? fromRefusal).getD waiting

theorem inStep_oneTracked : oneTracked.InStep where
  free c hc := by
    obtain rfl := List.mem_singleton.1 hc
    rfl
  single i j c d hc hd _ _ _ := by
    have hi := (List.getElem?_eq_some_iff.1 hc).1
    have hj := (List.getElem?_eq_some_iff.1 hd).1
    have hlength : oneTracked.cells.length = 1 := rfl
    omega
  same pair := by
    by_cases hpair : trackedPair = pair
    · subst hpair
      rfl
    · simp [Tracker.held?, PhaseStore.phase?, oneTracked, PhaseStore.save, PhaseStore.empty, hpair]

theorem inStep_of_interleaving_refusedBegin :
    oneTracked.InStep ∧ LeadsTo (of oneTracked) waiting ∧ waiting.WaitsOn 1 0 newPair ∧
      LeadsTo waiting settled ∧ settled.Keeping ∧ settled.Settled ∧
      settled.session.outcome? 0 = some (.failed (.storage "full")) ∧
      settled.session.outcome? 1 = some (.failed (.pairNotFound newPair.ring "s2")) ∧
      settled.way oneTracked.store trackedPair = [.ready1, .ready2] ∧
      settled.way oneTracked.store newPair = [.initial] ∧
      settled.session.outcome? 4 = some .moved ∧
      settled.savedBy 4 = [⟨trackedPair, .ready2⟩] ∧ settled.savedBy 1 = [] ∧
      ∀ pair, settled.session.tracker.held? pair = settled.session.tracker.store.phase? pair := by
  have hlead : LeadsTo (of oneTracked) waiting := leadsTo_of_play? untilWait rfl
  have hlead' : LeadsTo waiting settled := leadsTo_of_play? fromRefusal rfl
  have hkeep : settled.Keeping := by
    have hcalls : settled.calls = [.begin newPair, .transition newPair .ready1, .recover,
      .begin newPair, .transition trackedPair .ready2] := rfl
    simp [Keeping, hcalls]
  have hsettled : settled.Settled := by
    have hactivities : settled.session.activities = [.finished (.failed (.storage "full")),
      .untracked newPair, .finished (.recovered 1), .finished (.begun .initial),
      .finished .moved] := rfl
    simp [Settled, hactivities, Activity.untracked, Activity.fail]
  have hwaits : waiting.WaitsOn 1 0 newPair :=
    ⟨.ready1, 1, ⟨newPair, .initial, some 0, true⟩, rfl, rfl, rfl, newPair, rfl⟩
  obtain ⟨-, -, hrejected, -⟩ :=
    inStep_of_interleaving inStep_oneTracked hlead (hkeep.of_leadsTo hlead')
  obtain ⟨-, hsaved, -, hsame⟩ :=
    inStep_of_interleaving inStep_oneTracked (hlead.trans hlead') hkeep
  have hfailed := (hrejected 1 0 newPair hwaits settled hlead' hkeep (.storage "full") rfl).1 _ rfl
  refine ⟨inStep_oneTracked, hlead, hwaits, hlead', hkeep, hsettled, rfl, congrArg some hfailed, rfl,
    rfl, rfl, ?_, ?_, hsame hsettled⟩
  · rcases hsaved 4 trackedPair .ready2 .moved rfl rfl with ⟨-, h⟩ | ⟨⟨e, h⟩, -⟩
    · exact h
    · cases h
  · rcases hsaved 1 newPair .ready1 _ rfl rfl with ⟨h, -⟩ | ⟨-, h⟩
    · cases h
    · exact h

end History

end ReplicaRing
