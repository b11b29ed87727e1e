import ReplicaRing.Proofs.Trackers.Restarts

/-!
# Calls made one at a time

What a call does that is made while memory and store are in step and no other call is in flight. It
goes through many steps, but as nobody else sees what lies between them it may be taken for one:
`PhaseStore.perform` says what becomes of the store and what the call comes to, from the phases that
are stored, and the tracker does just that (`Tracker.InStep.perform_eq`). Afterwards memory and store
are in step again.

That a call comes to an end within some steps is said by the relation `Activity.Ends`. A call that is
alone always does: it finds every lock free that it needs. What all its steps keep is kept along the
relation (`Activity.Ends.coherent`, `Activity.Ends.waking`); the latter is for the first recovery
after a restart, where memory is not in step with the store yet.
-/

namespace ReplicaRing

/-! ### Calls in one step -/

namespace PhaseStore

/-- What a request leads to. One that is refused has no effect, and the call fails. -/
def attempt (s : PhaseStore) (refusal : Option String) (success : PhaseStore × Outcome) :
    PhaseStore × Outcome :=
  match refusal with
  | some reason => (s, .failed (.storage reason))
  | none => success

/-- What a call makes of the store and what it comes to, where what is stored is what is tracked. -/
def perform (s : PhaseStore) (faults : Request → Option String) : Call → PhaseStore × Outcome
  | .begin pair =>
    match s.phase? pair with
    | some p => (s, .begun p)
    | none =>
      s.attempt (faults (.save ⟨pair, .initial⟩)) (s.save ⟨pair, .initial⟩, .begun .initial)
  | .transition pair target =>
    match s.phase? pair with
    | none => (s, .failed (.pairNotFound pair.ring pair.participant))
    | some p =>
      if p.canMove target then
        s.attempt (faults (.save ⟨pair, target⟩)) (s.save ⟨pair, target⟩, .moved)
      else (s, .failed (.invalidTransition p target))
  | .phase pair => (s, .seen (s.phase? pair))
  | .lagging ring participants required =>
    (s, .lagging (participants.filter fun who =>
      !(s.phase? ⟨ring, who⟩).any required.satisfiedBy))
  | .forget ring => s.attempt (faults (.delete ring)) (s.eraseRing ring, .forgotten)
  | .recover => s.attempt (faults .load) (s, .recovered s.records.length)

end PhaseStore

/-! ### Coming to an end -/

variable {faults : Request → Option String} {t t' : Tracker} {a b : Activity} {n m : Nat}
  {outcome : Outcome} {result : PhaseStore × Outcome}

namespace Activity

/-- A call that is alone and has come to an activity is finished after at most some steps. -/
inductive Ends (faults : Request → Option String) :
    Activity → Tracker → Nat → Tracker → Outcome → Prop
  | finished {t : Tracker} {n : Nat} {outcome : Outcome} :
    Ends faults (.finished outcome) t n t outcome
  | step {a b : Activity} {t t' t'' : Tracker} {n : Nat} {outcome : Outcome} {reply : Reply}
    (answered : t.reply faults a = reply) (next : a.Moves 0 t reply t' b)
    (rest : Ends faults b t' n t'' outcome) : Ends faults a t (n + 1) t'' outcome

/-- The call is finished after at most some steps, with a store and an outcome as in `result`. -/
def Yields (faults : Request → Option String) (a : Activity) (t : Tracker) (n : Nat)
    (result : PhaseStore × Outcome) : Prop :=
  ∃ t', a.Ends faults t n t' result.2 ∧ t'.store = result.1

namespace Ends

theorem mono (h : a.Ends faults t n t' outcome) (hle : n ≤ m) : a.Ends faults t m t' outcome := by
  induction h generalizing m with
  | finished => exact .finished
  | step answered next _ ih =>
    obtain ⟨m, rfl⟩ : ∃ k, m = k + 1 := ⟨m - 1, by omega⟩
    exact .step answered next (ih (by omega))

/-- Whoever runs the call for as many steps sees its end. -/
theorem advance_eq (h : a.Ends faults t n t' outcome) :
    Session.advance faults (fun _ => false) 0 n ⟨t, [a]⟩ = ⟨t', [.finished outcome]⟩ := by
  induction h with
  | @finished t n outcome => cases n <;> simp [Session.advance, Session.step?, step?]
  | @step a b t t' t'' n outcome reply answered next _ ih =>
    have hstep : Session.step? ⟨t, [a]⟩ 0 (t.reply faults a) = some ⟨t', [b]⟩ := by
      simp [Session.step?, answered, next.step?_eq]
    rw [Session.advance]
    simpa [hstep] using ih

theorem perform_eq {call : Call} (h : call.start.Ends faults t n t' outcome)
    (hle : n ≤ t.stepLimit call) : t.perform faults call = some (t', outcome) := by
  have hrun : ((Session.of t).start call).advance faults (fun _ => false) 0 (t.stepLimit call) =
      ⟨t', [.finished outcome]⟩ := (h.mono hle).advance_eq
  unfold Tracker.perform
  rw [hrun]
  rfl

end Ends

namespace Yields

theorem mono (h : a.Yields faults t n result) (hle : n ≤ m) : a.Yields faults t m result := by
  obtain ⟨t', hends, hstore⟩ := h
  exact ⟨t', hends.mono hle, hstore⟩

theorem finished : (Activity.finished outcome).Yields faults t n (t.store, outcome) :=
  ⟨t, .finished, rfl⟩

theorem step {reply : Reply} (answered : t.reply faults a = reply) (next : a.Moves 0 t reply t' b)
    (h : b.Yields faults t' n result) : a.Yields faults t (n + 1) result := by
  obtain ⟨t'', hends, hstore⟩ := h
  exact ⟨t'', .step answered next hends, hstore⟩

/-- What comes of a request, from what comes of it where it is granted and where it is refused. -/
theorem attempt {request : Request} (hdone : faults request = none → a.Yields faults t n result)
    (hrefused : ∀ reason, faults request = some reason →
      a.Yields faults t n (t.store, .failed (.storage reason))) :
    a.Yields faults t n (t.store.attempt (faults request) result) := by
  cases hfault : faults request with
  | none => exact hdone hfault
  | some reason => exact hrefused reason hfault

end Yields

end Activity

theorem Tracker.mayAnswer_reply (t : Tracker) (faults : Request → Option String) (a : Activity) :
    t.store.MayAnswer a.request? (t.reply faults a) := by
  unfold reply
  cases a.request? with
  | none => trivial
  | some request =>
    show t.store.MayAnswer (some request) (t.answer faults request)
    unfold answer
    cases faults request with
    | some reason => cases request <;> trivial
    | none =>
      cases request with
      | load => exact List.Perm.refl _
      | save | delete => trivial

namespace Session

/-- A step of a call that is alone, as a step of its session. -/
theorem after_alone {reply : Reply} (h : a.Moves 0 t reply t' b) :
    after ⟨t, [a]⟩ (.move 0 reply) = ⟨t', [b]⟩ := by
  simp [after, step?, h.step?_eq]

/-- A call that is alone takes its steps as it should, if it is aware. -/
theorem orderly_alone (haware : a.Aware t) : Orderly ⟨t, [a]⟩ 0 (t.reply faults a) a := by
  refine orderly_of_alone rfl (fun m b hb hm => ?_) (t.mayAnswer_reply faults a) (Or.inr haware)
  obtain ⟨hlt, -⟩ := List.getElem?_eq_some_iff.1 hb
  exact absurd (Nat.lt_one_iff.1 hlt) hm

end Session

namespace Activity

/-- A call that is alone keeps memory and store in step. -/
theorem Ends.coherent (h : a.Ends faults t n t' outcome) (hs : Session.Coherent ⟨t, [a]⟩) :
    Session.Coherent ⟨t', [.finished outcome]⟩ := by
  induction h with
  | finished => exact hs
  | @step a b t t' t'' n outcome reply answered next _ ih =>
    have horderly : Session.Orderly ⟨t, [a]⟩ 0 reply a :=
      answered ▸ Session.orderly_alone (hs.aware a)
    have hcalm := horderly.calm
    rw [Session.after_alone next] at hcalm
    exact ih (hs.of_moves rfl horderly.honest next hcalm)

/-- Who has loaded the records goes on to merge them until it has recovered. -/
theorem Moves.hasLoaded_next {me : Nat} {reply : Reply} (h : a.Moves me t reply t' b)
    (hloaded : a.hasLoaded = true) : b.hasLoaded = true := by
  cases h with
  | mergedAll | mergeFound | mergeMissing | adopt | keep => rfl
  | _ => cases hloaded

/-- A call that has loaded the records wakes the pairs that are asleep. -/
theorem Ends.waking (h : a.Ends faults t n t' outcome) (hloaded : a.hasLoaded = true)
    {asleep : Participation → Bool} (hs : Session.Waking asleep ⟨t, [a]⟩) :
    ∃ asleep', Session.Waking asleep' ⟨t', [.finished outcome]⟩ := by
  induction h generalizing asleep with
  | finished => exact ⟨asleep, hs⟩
  | @step a b t t' t'' n outcome reply answered next _ ih =>
    have haware : a.Aware t := by
      intro pair hpair
      cases a with
      | beginning => cases hloaded
      | _ => cases hpair
    have hpermits : Session.Permits ⟨t, [a]⟩ (.event (.move 0 reply)) := by
      rintro _ ⟨⟩
      exact answered ▸ Session.orderly_alone haware
    obtain ⟨asleep', hs'⟩ := hs.endure hpermits
    rw [Session.endure, Session.after_alone next] at hs'
    exact ih (next.hasLoaded_next hloaded) hs'

end Activity

/-! ### The ends of calls -/

namespace Tracker

theorem reply_of_refused {request : Request} {reason : String} (ha : a.request? = some request)
    (hfault : faults request = some reason) : t.reply faults a = .refused reason := by
  simp [reply, ha, answer, hfault]

theorem reply_of_load (hfault : faults .load = none) :
    t.reply faults .loading = .loaded t.store.records := by
  simp [reply, Activity.request?, answer, hfault]

theorem reply_of_write {request : Request} (ha : a.request? = some request)
    (hfault : faults request = none) (hwrite : request ≠ .load) : t.reply faults a = .done := by
  cases request <;> simp_all [reply, answer]

theorem free_setPhase (hfree : ∀ c ∈ t.cells, c.holder = none) (cell : Nat) (p : Phase) :
    ∀ c ∈ (t.setPhase cell p).cells, c.holder = none := by
  intro c hc
  obtain ⟨i, hi⟩ := List.mem_iff_getElem?.1 hc
  unfold setPhase at hi
  rw [cells_update, Option.map_eq_some_iff] at hi
  obtain ⟨d, hd, rfl⟩ := hi
  have hholder := hfree d (List.mem_of_getElem? hd)
  split <;> exact hholder

/-- Records are merged without waiting while nobody holds a lock, whatever memory holds. -/
theorem yields_merging (faults : Request → Option String)
    (hfree : ∀ c ∈ t.cells, c.holder = none) (count : Nat) (records : List PhaseRecord) :
    (Activity.merging count records).Yields faults t
      (2 * records.length + 1) (t.store, .recovered count) := by
  -- On the records. A cell that is added or adopts a record is as free as the others.
  induction records generalizing t with
  | nil => exact .step rfl .mergedAll .finished
  | cons record rest ih =>
    rw [List.length_cons]
    cases hfind : t.find? record.pair with
    | none =>
      have hadd : ∀ c ∈ (t.add ⟨record.pair, record.phase, none, true⟩).cells, c.holder = none := by
        simpa [add, or_imp, forall_and] using hfree
      exact .mono (.step rfl (.mergeMissing hfind) (ih hadd)) (by omega)
    | some cell =>
      obtain ⟨c, hc, -, -⟩ := find?_eq_some hfind
      have hpeek : t.peek? cell = some c.phase :=
        peek?_eq_some.2 ⟨c, hc, hfree c (List.mem_of_getElem? hc), rfl⟩
      refine .step rfl (.mergeFound hfind) ?_
      cases hadopts : c.phase.adopts record.phase with
      | false => exact .step rfl (.keep hpeek hadopts) (ih hfree)
      | true =>
        exact .step rfl (.adopt hpeek hadopts) (ih (free_setPhase hfree cell record.phase))

theorem yields_recover (hfree : ∀ c ∈ t.cells, c.holder = none) (faults : Request → Option String) :
    Activity.loading.Yields faults t (2 * t.store.records.length + 2)
      (t.store.perform faults .recover) := by
  refine .attempt (fun h => ?_) fun reason h => ?_
  · exact .step (reply_of_load h) .load (yields_merging faults hfree ..)
  · exact .step (reply_of_refused rfl h) .refuseLoad .finished

/-- Cells whose locks are free are locked without waiting, and their ring is deleted. -/
theorem yields_lockingAll (faults : Request → Option String) {ring : RingVersion}
    {waiting : List Nat} (hnodup : waiting.Nodup)
    (hfree : ∀ i ∈ waiting, ∃ c : Cell, t.cells[i]? = some c ∧ c.holder = none)
    (locked : List Nat) : (Activity.lockingAll ring waiting locked).Yields faults t
      (waiting.length + 3) (t.store.perform faults (.forget ring)) := by
  induction waiting generalizing t locked with
  | nil =>
    refine .step rfl .lockedAll (.attempt (fun h => ?_) fun reason h => ?_)
    · exact .step (reply_of_write rfl h (by simp)) .delete
        ⟨_, .step rfl .clear .finished, store_unlockAll ..⟩
    · exact ⟨_, .step (reply_of_refused rfl h) .refuseDelete .finished, store_unlockAll ..⟩
  | cons cell waiting ih =>
    obtain ⟨hcell, hnodup⟩ := List.nodup_cons.1 hnodup
    obtain ⟨c, hc, hholder⟩ := hfree cell (List.mem_cons_self ..)
    -- The cells that are still waiting are others than the one that is locked now.
    have hrest : ∀ i ∈ waiting, ∃ d : Cell,
        (t.update cell fun c => { c with holder := some 0 }).cells[i]? = some d ∧
          d.holder = none := by
      intro i hi
      obtain ⟨d, hd, hfreed⟩ := hfree i (List.mem_cons_of_mem _ hi)
      have hne : i ≠ cell := fun h => hcell (h ▸ hi)
      exact ⟨d, by simp [cells_update, hd, hne], hfreed⟩
    exact .step rfl (.lockNext hc hholder) (ih hnodup hrest (cell :: locked))

theorem nodup_cellsOf (t : Tracker) (ring : RingVersion) : (t.cellsOf ring).Nodup := by
  refine List.Nodup.sublist (List.filter_sublist.map _) ?_
  rw [List.zipIdx_map_snd]
  exact List.nodup_range'

theorem length_cellsOf_le (t : Tracker) (ring : RingVersion) :
    (t.cellsOf ring).length ≤ t.cells.length := by
  unfold cellsOf
  rw [List.length_map, ← t.cells.length_zipIdx]
  exact List.length_filter_le ..

namespace InStep

theorem find?_eq_none (ht : t.InStep) {pair : Participation} (h : t.store.phase? pair = none) :
    t.find? pair = none := by
  cases hfind : t.find? pair with
  | none => rfl
  | some i =>
    obtain ⟨c, hc, hlive, hpair⟩ := find?_eq_some hfind
    have hheld := ht.single.held?_eq_some_iff.2 ⟨i, c, hc, hlive, hpair, rfl⟩
    simp [ht.same, h] at hheld

/-- What is stored is found in a free cell. -/
theorem exists_cell (ht : t.InStep) {pair : Participation} {p : Phase}
    (h : t.store.phase? pair = some p) :
    ∃ i, t.find? pair = some i ∧ t.cells[i]? = some ⟨pair, p, none, true⟩ := by
  obtain ⟨i, c, hc, hlive, hpair, hphase⟩ := ht.single.held?_eq_some_iff.1 ((ht.same pair).trans h)
  have hcell : c = ⟨pair, p, none, true⟩ := by
    rw [← hpair, ← hphase, ← ht.free c (List.mem_of_getElem? hc), ← hlive]
  cases hfind : t.find? pair with
  | none => exact absurd hpair (Tracker.find?_eq_none.1 hfind i c hc hlive)
  | some j =>
    obtain ⟨d, hd, hdlive, hdpair⟩ := find?_eq_some hfind
    obtain rfl := ht.single i j c d hc hd hlive hdlive (hpair.trans hdpair.symm)
    exact ⟨i, rfl, hcell ▸ hc⟩

/-- What is stored can be read from a live cell. -/
theorem exists_peek (ht : t.InStep) {pair : Participation} {p : Phase}
    (h : t.store.phase? pair = some p) :
    ∃ i, t.find? pair = some i ∧ t.peek? i = some p ∧ t.isLive i = true := by
  obtain ⟨i, hfind, hcell⟩ := ht.exists_cell h
  exact ⟨i, hfind, peek?_eq_some.2 ⟨_, hcell, rfl, rfl⟩, by simp [isLive, hcell]⟩

theorem yields_begin (ht : t.InStep) (faults : Request → Option String) (pair : Participation) :
    (Activity.beginning pair).Yields faults t 3 (t.store.perform faults (.begin pair)) := by
  cases hphase : t.store.phase? pair with
  | some p =>
    simp only [PhaseStore.perform, hphase]
    obtain ⟨i, hfind, hpeek, hlive⟩ := ht.exists_peek hphase
    exact .step rfl (.join hfind) (.step rfl (.readJoined hpeek)
      (.step rfl (.joinLive hlive) .finished))
  | none =>
    simp only [PhaseStore.perform, hphase]
    refine .step rfl (.make (ht.find?_eq_none hphase)) (.attempt (fun h => ?_) fun reason h => ?_)
    · exact .step (reply_of_write rfl h (by simp)) .saveNew .finished
    · exact .step (reply_of_refused rfl h) .refuseNew (.step rfl .withdraw .finished)

theorem yields_transition (ht : t.InStep) (faults : Request → Option String)
    (pair : Participation) (target : Phase) : (Activity.moving pair target).Yields faults t 4
      (t.store.perform faults (.transition pair target)) := by
  cases hphase : t.store.phase? pair with
  | none =>
    simp only [PhaseStore.perform, hphase]
    exact .step rfl (.missMoved (ht.find?_eq_none hphase)) .finished
  | some p =>
    obtain ⟨i, hfind, hcell⟩ := ht.exists_cell hphase
    have hlocked : (t.update i fun c => { c with holder := some 0 }).cells[i]? =
        some ⟨pair, p, some 0, true⟩ := by simp [cells_update, hcell]
    refine .step rfl (.findMoved hfind) (.step rfl (.lockMoved hcell rfl) ?_)
    cases hmove : p.canMove target with
    | false =>
      simp only [PhaseStore.perform, hphase, hmove]
      exact .step rfl (.rejectMove hlocked rfl hmove) .finished
    | true =>
      simp only [PhaseStore.perform, hphase, hmove, if_true]
      refine .step rfl (.acceptMove hlocked rfl hmove) (.attempt (fun h => ?_) fun reason h => ?_)
      · exact .step (reply_of_write rfl h (by simp)) .saveMove .finished
      · exact .step (reply_of_refused rfl h) .refuseMove .finished

/-- A question is answered by what is stored. -/
theorem yields_asking (ht : t.InStep) {pair : Participation} {question : Question}
    (h : (question.answer pair (t.store.phase? pair)).Yields faults t n result) :
    (Activity.asking pair question).Yields faults t (n + 3) result := by
  cases hphase : t.store.phase? pair with
  | none =>
    rw [hphase] at h
    exact .mono (.step rfl (.missAsked (ht.find?_eq_none hphase)) h) (by omega)
  | some p =>
    obtain ⟨i, hfind, hpeek, hlive⟩ := ht.exists_peek hphase
    rw [hphase] at h
    exact .step rfl (.findAsked hfind) (.step rfl (.readAsked hpeek)
      (.step rfl (.confirmLive hlive) h))

theorem yields_survey (ht : t.InStep) (faults : Request → Option String) (ring : RingVersion)
    (required : Phase) (rest found : List NodeId) :
    (Activity.survey ring required rest found).Yields faults t (3 * rest.length)
      (t.store, .lagging (found ++ rest.filter fun who =>
        !(t.store.phase? ⟨ring, who⟩).any required.satisfiedBy)) := by
  induction rest generalizing found with
  | nil => simpa using .finished
  | cons who rest ih =>
    refine ht.yields_asking (n := 3 * rest.length) ?_
    cases hmet : (t.store.phase? ⟨ring, who⟩).any required.satisfiedBy with
    | true => simpa [Question.answer, hmet] using ih found
    | false => simpa [Question.answer, hmet] using ih (found ++ [who])

theorem yields_forget (ht : t.InStep) (faults : Request → Option String) (ring : RingVersion) :
    (Activity.gathering ring).Yields faults t (t.cells.length + 4)
      (t.store.perform faults (.forget ring)) := by
  have hfree : ∀ i ∈ t.cellsOf ring, ∃ c : Cell, t.cells[i]? = some c ∧ c.holder = none := by
    intro i hi
    obtain ⟨c, hc, -⟩ := mem_cellsOf.1 hi
    exact ⟨c, hc, ht.free c (List.mem_of_getElem? hc)⟩
  refine .step rfl .gather (.mono (yields_lockingAll faults (t.nodup_cellsOf ring) hfree []) ?_)
  exact Nat.add_le_add_right (t.length_cellsOf_le ring) 3

/-- A call that is alone yields what it comes to in one step. -/
theorem yields_start (ht : t.InStep) (faults : Request → Option String) (call : Call) :
    call.start.Yields faults t (t.stepLimit call) (t.store.perform faults call) := by
  cases call with
  | begin pair => exact (ht.yields_begin faults pair).mono (by simp [stepLimit])
  | transition pair target =>
    exact (ht.yields_transition faults pair target).mono (by simp [stepLimit])
  | phase pair => exact (ht.yields_asking (n := 0) .finished).mono (by simp [stepLimit])
  | lagging ring participants required =>
    exact (ht.yields_survey faults ring required participants []).mono (by simp [stepLimit])
  | forget ring => exact (ht.yields_forget faults ring).mono (by simp [stepLimit]; omega)
  | recover => exact (yields_recover ht.free faults).mono (by simp [stepLimit]; omega)

/-- A call that is made alone comes to its end, and does what it would do in one step. Memory and
store are in step again afterwards. -/
theorem perform_eq (ht : t.InStep) (faults : Request → Option String) (call : Call) :
    ∃ t', t.perform faults call = some (t', (t.store.perform faults call).2) ∧
      t'.store = (t.store.perform faults call).1 ∧ t'.InStep := by
  obtain ⟨t', hends, hstore⟩ := ht.yields_start faults call
  have hstart : Session.Coherent ⟨t, [call.start]⟩ := (Session.coherent_of_inStep ht).start call
  refine ⟨t', hends.perform_eq (Nat.le_refl _), hstore, (hends.coherent hstart).inStep ?_⟩
  simp

end InStep

/-- A tracker that has recovered what is stored is in step with it. -/
theorem exists_recovered (store : PhaseStore) (hload : faults .load = none) :
    ∃ t, (onStore store).perform faults .recover = some (t, .recovered store.records.length) ∧
      t.store = store ∧ t.InStep := by
  have hfree : ∀ c ∈ (onStore store).cells, c.holder = none := by simp [onStore]
  obtain ⟨t, hends, hstore⟩ := yields_merging faults hfree store.records.length store.records
  have hrecover : (Call.start .recover).Ends faults (onStore store)
      (2 * store.records.length + 2) t (.recovered store.records.length) :=
    .step (reply_of_load hload) .load hends
  -- Memory lags behind the store until the last record is merged. What the steps keep meanwhile is
  -- that all pairs that are not stored in memory yet have their records still to merge.
  have hloaded : Session.Waking (fun _ => true)
      ⟨onStore store, [.merging store.records.length store.records]⟩ :=
    ((Session.waking_of_onStore store).start .recover).load (n := 0) rfl (.refl _)
  obtain ⟨asleep, hwaking⟩ := hends.waking rfl hloaded
  have hcoherent := hwaking.coherent_of_recovered ⟨_, List.mem_singleton_self _, rfl⟩
  exact ⟨t, hrecover.perform_eq (by simp [stepLimit, onStore]), hstore,
    hcoherent.inStep (by simp)⟩

end Tracker

end ReplicaRing
