import ReplicaRing.Proofs.Trackers.Awake

/-!
# Taking up what is stored

After a restart memory and store are in step but for the pairs that are asleep (`Session.Waking`),
and the steps that keep a session coherent keep it waking as well (`Session.Waking.of_moves`).

A pair wakes when a call that recovers adds a cell for it. For all other calls this is as if the pair
had been begun and saved in the phase of its record (`Session.Coherent.takeOver`). Once the call has
recovered, all pairs are awake (`Session.Waking.coherent_of_recovered`).
-/

namespace ReplicaRing

variable {asleep : Participation → Bool}

/-! ### Records that go on -/

namespace PhaseStore

/-- From one store to the next, the record of a pair stays, or is replaced by one to whose phase it
may move, or is the first one and initial. -/
def GoesOn (s : PhaseStore) (pair : Participation) (s' : PhaseStore) : Prop :=
  s'.phase? pair = s.phase? pair ∨
    (s.phase? pair = none ∧ s'.phase? pair = some .initial) ∨
    ∃ p q, s.phase? pair = some p ∧ s'.phase? pair = some q ∧ p.canMove q = true

theorem GoesOn.reaches {pair : Participation} {s s' : PhaseStore} (h : s.GoesOn pair s')
    {p : Phase} (hp : s.phase? pair = some p) :
    ∃ q, s'.phase? pair = some q ∧ p.Reaches q := by
  rcases h with hsame | ⟨hnone, -⟩ | ⟨p', q, hp', hq, hmove⟩
  · exact ⟨p, hsame.trans hp, .refl⟩
  · rw [hnone] at hp
    cases hp
  · obtain rfl := Option.some.inj (hp'.symm.trans hp)
    exact ⟨q, hq, .single hmove⟩

end PhaseStore

/-! ### Coherence of what is awake -/

/-- What a call relies on of the pairs that are awake is still true when more pairs wake, if their
records lead nowhere further than what is stored. -/
theorem Activity.Grounded.of_awake {asleep' : Participation → Bool} {t : Tracker}
    {store : PhaseStore} {n : Nat} {b : Activity} (h : (b.awake asleep).Grounded t n)
    (hphase : ∀ pair, store.phase? pair = t.store.phase? pair)
    (hpending : ∀ r ∈ b.pending, asleep r.pair = true → asleep' r.pair = false →
      t.store.Outran r) :
    (b.awake asleep').Grounded ⟨t.cells, store⟩ n := by
  have houtran : ∀ r, t.store.Outran r → store.Outran r := by
    rintro r ⟨p, hp, hreaches⟩
    exact ⟨p, (hphase r.pair).trans hp, hreaches⟩
  -- A record is either awake before, or wakes now.
  have hrest : ∀ records : List PhaseRecord, records ⊆ b.pending →
      (∀ r ∈ records.filter fun r => !asleep r.pair, t.store.Outran r) →
        ∀ r ∈ records.filter fun r => !asleep' r.pair, store.Outran r := by
    intro records hsubset hbefore r hr
    obtain ⟨hr, hawake⟩ := List.mem_filter.1 hr
    apply houtran
    cases hasleep : asleep r.pair with
    | true => exact hpending r (hsubset hr) hasleep (by simpa using hawake)
    | false => exact hbefore r (List.mem_filter.2 ⟨hr, by simp [hasleep]⟩)
  cases b with
  | merging count records => exact hrest records (List.Subset.refl _) h
  | adopting count record rest cell =>
    obtain ⟨hbefore, hcell⟩ := h
    refine ⟨fun r hr => ?_, hcell⟩
    rcases List.mem_cons.1 hr with rfl | hr
    · exact houtran r (hbefore r (List.mem_cons_self ..))
    · exact hrest rest (List.subset_cons_self ..)
        (fun r hr => hbefore r (List.mem_cons_of_mem _ hr)) r hr
  | savingNew pair cell | withdrawing pair cell => exact ⟨h.1, (hphase pair).trans h.2⟩
  | clearing ring locked =>
    exact ⟨h.1, h.2.1, fun pair hring => (hphase pair).trans (h.2.2 pair hring)⟩
  | _ => exact h

namespace Session

variable {s : Session} {n : Nat} {a next : Activity} {reply : Reply} {t' : Tracker}

namespace Coherent

/-- Where memory and store are in step, nobody begins a pair unaware of its record. -/
theorem aware (hs : s.Coherent) (a : Activity) : a.Aware s.tracker :=
  fun _ _ hmissing => hs.phase?_eq_none_of_find? hmissing

/-- A record of a pair that is not tracked may be taken over in a free cell. For the other calls the
pair has been begun and saved in the phase of the record. -/
theorem takeOver (hs : s.Coherent) (hn : s.activities[n]? = some a) (hlocks : a.locks = [])
    (hunstored : a.unstored = false) {record : PhaseRecord}
    (hmissing : s.tracker.find? record.pair = none)
    (hforgets : ∀ b ∈ s.activities, ∀ ring, b.forgets? = some ring → record.pair.ring ≠ ring)
    (hground : next.Grounded
      ⟨(s.tracker.add ⟨record.pair, record.phase, none, true⟩).cells, s.tracker.store.save record⟩ n)
    (hnextLocks : next.locks = []) (hnextUnstored : next.unstored = false) :
    Coherent ⟨⟨(s.tracker.add ⟨record.pair, record.phase, none, true⟩).cells,
      s.tracker.store.save record⟩, s.activities.set n next⟩ := by
  set made : Cell := ⟨record.pair, .initial, some n, true⟩
  have hlt : n < s.activities.length := (List.getElem?_eq_some_iff.1 hn).1
  have hturn : ∀ b : Activity, (s.activities.set n b)[n]? = some b := fun b =>
    List.getElem?_set_self hlt
  -- The call looks the pair up, makes a cell for it, saves it in the phase of the record, and goes
  -- on as it is to.
  have hbeginning : Coherent ⟨s.tracker, s.activities.set n (.beginning record.pair)⟩ :=
    hs.look hn trivial hlocks.symm hunstored.symm
  have hmade : Coherent ⟨s.tracker.add made,
      s.activities.set n (.savingNew record.pair s.tracker.cells.length)⟩ := by
    have hmake := hbeginning.make (hturn _) hmissing fun b hb ring hring => by
      rcases List.mem_or_eq_of_mem_set hb with hb | rfl
      · exact hforgets b hb ring hring
      · cases hring
    rwa [List.set_set] at hmake
  have hsaved : Coherent ⟨⟨(s.tracker.add ⟨record.pair, record.phase, none, true⟩).cells,
      s.tracker.store.save record⟩, s.activities.set n (.finished .moved)⟩ := by
    have hcell : (s.tracker.add made).cells[s.tracker.cells.length]? = some made := by
      rw [Tracker.cells_add, if_pos rfl]
    have hnone : s.tracker.store.phase? record.pair = none := hs.phase?_eq_none_of_find? hmissing
    have hstore : s.tracker.store.save record =
        (s.tracker.add made).store.save ⟨made.pair, record.phase⟩ := rfl
    rw [← List.set_set (.savingNew record.pair s.tracker.cells.length)]
    refine hmade.save (hturn _) hcell rfl rfl rfl ?_ ?_ hstore .moved
    · intro p hp
      exact absurd (hnone.symm.trans hp) (Option.some_ne_none p).symm
    · intro i
      rw [Tracker.cells_add, Tracker.cells_add]
      by_cases hi : i = s.tracker.cells.length <;> simp [hi, made]
  have hlook := hsaved.look (hturn _) hground hnextLocks hnextUnstored
  rwa [List.set_set] at hlook

/-- What is awake stays coherent when more pairs wake, if their records lead nowhere further than
what is stored. -/
theorem of_awake {t : Tracker} {store : PhaseStore} {activities : List Activity}
    {asleep' : Participation → Bool}
    (hs : Coherent ⟨t, activities.map (Activity.awake asleep)⟩)
    (hphase : ∀ pair, store.phase? pair = t.store.phase? pair)
    (hpending : ∀ b ∈ activities, ∀ r ∈ b.pending, asleep r.pair = true → asleep' r.pair = false →
      t.store.Outran r) :
    Coherent ⟨⟨t.cells, store⟩, activities.map (Activity.awake asleep')⟩ := by
  have hactivity : ∀ {f : Activity → Activity} {m : Nat} {b : Activity},
      (activities.map f)[m]? = some b → ∃ b₀, activities[m]? = some b₀ ∧ f b₀ = b := by
    intro f m b hb
    rwa [List.getElem?_map, Option.map_eq_some_iff] at hb
  refine ⟨?_, ?_, hs.single, ?_, ?_⟩
  · intro m b hb
    obtain ⟨b, hb₀, rfl⟩ := hactivity hb
    have hground := hs.grounded m (b.awake asleep) (by rw [List.getElem?_map, hb₀]; rfl)
    exact hground.of_awake hphase (hpending b (List.mem_of_getElem? hb₀))
  · intro i c m hc hholder
    obtain ⟨b, hb, hmem⟩ := hs.locked i c m hc hholder
    obtain ⟨b, hb₀, rfl⟩ := hactivity hb
    rw [Activity.locks_awake] at hmem
    exact ⟨b.awake asleep', by rw [List.getElem?_map, hb₀]; rfl, by rwa [Activity.locks_awake]⟩
  · intro i c hc hlive hsettled
    refine (hphase c.pair).trans (hs.stored i c hc hlive fun m b hm hb => ?_)
    obtain ⟨b, hb₀, rfl⟩ := hactivity hb
    have hawake := hsettled m (b.awake asleep') hm (by rw [List.getElem?_map, hb₀]; rfl)
    rwa [Activity.unstored_awake] at hawake ⊢
  · intro pair p hp
    exact hs.tracked pair p ((hphase pair).symm.trans hp)

end Coherent

/-! ### Sessions after a restart -/

/-- Memory and store are in step but for the pairs that are asleep: they are not tracked, and what
calls have still to merge of them is what is stored. -/
structure Waking (asleep : Participation → Bool) (s : Session) : Prop where
  coherent : (s.awake asleep).Coherent
  untracked : ∀ pair, asleep pair = true → s.tracker.find? pair = none
  pending : ∀ b ∈ s.activities, ∀ r ∈ b.pending, asleep r.pair = true →
    s.tracker.store.phase? r.pair = some r.phase
  /-- Who has loaded the records has those of pairs that are asleep still to merge. -/
  covered : ∀ b ∈ s.activities, b.hasLoaded = true → ∀ pair p, asleep pair = true →
    s.tracker.store.phase? pair = some p → ⟨pair, p⟩ ∈ b.pending

/-- All pairs are asleep for a tracker that has just been made. -/
theorem waking_of_onStore (store : PhaseStore) :
    (Session.of (.onStore store)).Waking fun _ => true where
  coherent := by
    have hstep : (Tracker.onStore (store.awake fun _ => true)).InStep := by
      refine ⟨fun c hc => absurd hc List.not_mem_nil, fun i j c d hc => ?_, fun pair => ?_⟩
      · rw [Tracker.onStore, List.getElem?_nil] at hc
        cases hc
      · exact (store.phase?_awake (fun _ => true) pair).symm
    exact coherent_of_inStep hstep
  untracked _ _ := rfl
  pending b hb := absurd hb List.not_mem_nil
  covered b hb := absurd hb List.not_mem_nil

namespace Waking

theorem start (hs : s.Waking asleep) (call : Call) : (s.start call).Waking asleep where
  coherent := by
    have hstart : (s.start call).awake asleep = (s.awake asleep).start call := by
      unfold awake Session.start
      rw [List.map_append, List.map_singleton, Activity.awake_start]
    rw [hstart]
    exact hs.coherent.start call
  untracked := hs.untracked
  pending b hb r hr := by
    rcases List.mem_append.1 hb with hb | hb
    · exact hs.pending b hb r hr
    · obtain rfl := List.mem_singleton.1 hb
      rw [Activity.pending_start] at hr
      cases hr
  covered b hb hloaded := by
    rcases List.mem_append.1 hb with hb | hb
    · exact hs.covered b hb hloaded
    · obtain rfl := List.mem_singleton.1 hb
      rw [Activity.hasLoaded_start] at hloaded
      cases hloaded

/-- A pair with a live cell is awake. -/
theorem asleep_eq_false (hs : s.Waking asleep) {i : Nat} {c : Cell}
    (hc : s.tracker.cells[i]? = some c) (hlive : c.live = true) : asleep c.pair = false := by
  cases hasleep : asleep c.pair with
  | false => rfl
  | true => exact absurd rfl (Tracker.find?_eq_none.1 (hs.untracked _ hasleep) i c hc hlive)

/-- A record that a call is about to save is for a pair that is awake. -/
theorem asleep_of_save (hs : s.Waking asleep) (hn : s.activities[n]? = some a) {r : PhaseRecord}
    (hr : a.request? = some (.save r)) : asleep r.pair = false := by
  have hground := hs.coherent.grounded n _ (getElem?_awake hn asleep)
  rcases Activity.eq_of_request? hr with ⟨cell, rfl, -⟩ | ⟨cell, rfl⟩
  · exact hs.asleep_eq_false hground.1 rfl
  · obtain ⟨c, hc, hpair, -, hlive, -⟩ := hground
    rw [← hpair]
    exact hs.asleep_eq_false hc hlive

/-- A pair of which nothing is stored may as well be awake. -/
theorem wake (hs : s.Waking asleep) {pair : Participation}
    (hnone : s.tracker.store.phase? pair = none) :
    s.Waking fun p => asleep p && p != pair where
  coherent := by
    refine hs.coherent.of_awake (fun p => ?_) fun b hb r hr hasleep hawake => ?_
    · refine (PhaseStore.phase?_awake ..).trans ((PhaseStore.phase?_awake ..).trans ?_).symm
      by_cases hp : p = pair
      · rw [hp, hnone]
        simp
      · simp [hp]
    · -- A record of the pair that is to be merged would be stored.
      have hpair : r.pair = pair := by simpa [hasleep] using hawake
      have hstored := hs.pending b hb r hr hasleep
      rw [hpair, hnone] at hstored
      cases hstored
  untracked p hp := hs.untracked p (Bool.and_eq_true_iff.1 hp).1
  pending b hb r hr hasleep := hs.pending b hb r hr (Bool.and_eq_true_iff.1 hasleep).1
  covered b hb hloaded p q hasleep :=
    hs.covered b hb hloaded p q (Bool.and_eq_true_iff.1 hasleep).1

/-- What is to be shown of a step, if no pair wakes: it keeps what is awake coherent, tracks none of
the pairs that are asleep, saves nothing for them, and leaves their records alone while they are to
be merged. -/
theorem keep (hs : s.Waking asleep)
    (hcoherent : Coherent (awake asleep ⟨t', s.activities.set n next⟩))
    (huntracked : ∀ pair, asleep pair = true → t'.find? pair = none)
    (hold : ∀ pair p, asleep pair = true → t'.store.phase? pair = some p →
      s.tracker.store.phase? pair = some p)
    (hstored : ∀ b ∈ s.activities, ∀ r ∈ b.pending, asleep r.pair = true →
      t'.store.phase? r.pair = s.tracker.store.phase? r.pair)
    (hpending : ∀ r ∈ next.pending, asleep r.pair = true →
      t'.store.phase? r.pair = some r.phase)
    (hcovered : next.hasLoaded = true → ∀ pair p, asleep pair = true →
      s.tracker.store.phase? pair = some p → ⟨pair, p⟩ ∈ next.pending) :
    Waking asleep ⟨t', s.activities.set n next⟩ where
  coherent := hcoherent
  untracked := huntracked
  pending b hb r hr hasleep := by
    rcases List.mem_or_eq_of_mem_set hb with hb | rfl
    · exact (hstored b hb r hr hasleep).trans (hs.pending b hb r hr hasleep)
    · exact hpending r hr hasleep
  covered b hb hloaded pair p hasleep hp := by
    have hbefore := hold pair p hasleep hp
    rcases List.mem_or_eq_of_mem_set hb with hb | rfl
    · exact hs.covered b hb hloaded pair p hasleep hbefore
    · exact hcovered hloaded pair p hasleep hbefore

/-- Records are loaded. Those of pairs that are asleep are stored as they are. -/
theorem load (hs : s.Waking asleep) (hn : s.activities[n]? = some .loading)
    {records : List PhaseRecord} (hrecords : records.Perm s.tracker.store.records) :
    Waking asleep ⟨s.tracker, s.activities.set n (.merging records.length records)⟩ := by
  have hloaded : ∀ r ∈ records, s.tracker.store.phase? r.pair = some r.phase := fun r hr =>
    PhaseStore.phase?_eq_some_iff.2 (hrecords.mem_iff.1 hr)
  have hall : ∀ pair p, s.tracker.store.phase? pair = some p → ⟨pair, p⟩ ∈ records :=
    fun pair p hp => hrecords.mem_iff.2 (PhaseStore.phase?_eq_some_iff.1 hp)
  refine hs.keep ?_ hs.untracked (fun _ _ _ hp => hp) (fun _ _ _ _ _ => rfl)
    (fun r hr _ => hloaded r hr) fun _ pair p _ hp => hall pair p hp
  rw [awake_set]
  refine hs.coherent.look (getElem?_awake hn asleep) (fun r hr => ?_) rfl rfl
  obtain ⟨hr, hawake⟩ := List.mem_filter.1 hr
  have hpair : asleep r.pair = false := by simpa using hawake
  exact ⟨r.phase, (phase?_of_awake s hpair).trans (hloaded r hr), .refl⟩

section TakeUp

variable {count : Nat} {record : PhaseRecord} {rest : List PhaseRecord}

/-- When a record of a pair that is asleep is taken over, what was awake stays coherent with it. -/
theorem coherent_takeUp (hs : s.Waking asleep)
    (hn : s.activities[n]? = some (.merging count (record :: rest)))
    (hasleep : asleep record.pair = true)
    (hforgets : ∀ b ∈ s.activities, ∀ ring, b.forgets? = some ring → record.pair.ring ≠ ring) :
    Coherent ⟨⟨(s.tracker.add ⟨record.pair, record.phase, none, true⟩).cells,
      (s.tracker.store.awake asleep).save record⟩,
      (s.activities.set n (.merging count rest)).map (Activity.awake asleep)⟩ := by
  rw [List.map_set]
  refine hs.coherent.takeOver (getElem?_awake hn asleep) rfl rfl (hs.untracked _ hasleep) ?_ ?_
    rfl rfl
  · intro b hb ring hring
    obtain ⟨b₀, hb₀, rfl⟩ := mem_awake hb
    rw [Activity.forgets?_awake] at hring
    exact hforgets b₀ hb₀ ring hring
  · intro r hr
    have hground := hs.coherent.grounded n _ (getElem?_awake hn asleep)
    obtain ⟨hr, hawake⟩ := List.mem_filter.1 hr
    obtain ⟨p, hp, hreaches⟩ := hground r (List.mem_filter.2 ⟨List.mem_cons_of_mem _ hr, hawake⟩)
    have hne : record.pair ≠ r.pair := by
      intro heq
      rw [← heq, hasleep] at hawake
      cases hawake
    refine ⟨p, ?_, hreaches⟩
    rw [PhaseStore.phase?_save, if_neg hne]
    exact hp

/-- A record of a pair that is asleep is taken over, which wakes the pair. -/
theorem takeUp (hs : s.Waking asleep)
    (hn : s.activities[n]? = some (.merging count (record :: rest)))
    (hasleep : asleep record.pair = true)
    (hforgets : ∀ b ∈ s.activities, ∀ ring, b.forgets? = some ring → record.pair.ring ≠ ring) :
    Waking (fun p => asleep p && p != record.pair)
      ⟨s.tracker.add ⟨record.pair, record.phase, none, true⟩,
        s.activities.set n (.merging count rest)⟩ := by
  have hmem : Activity.merging count (record :: rest) ∈ s.activities := List.mem_of_getElem? hn
  have hphase : s.tracker.store.phase? record.pair = some record.phase :=
    hs.pending _ hmem record (List.mem_cons_self ..) hasleep
  have hpending : ∀ b ∈ s.activities.set n (.merging count rest), ∀ r ∈ b.pending,
      asleep r.pair = true → s.tracker.store.phase? r.pair = some r.phase := by
    intro b hb r hr hr'
    rcases List.mem_or_eq_of_mem_set hb with hb | rfl
    · exact hs.pending b hb r hr hr'
    · exact hs.pending _ hmem r (List.mem_cons_of_mem _ hr) hr'
  refine ⟨(hs.coherent_takeUp hn hasleep hforgets).of_awake (fun p => ?_) ?_, ?_, ?_, ?_⟩
  · show ((s.tracker.store.awake fun p => asleep p && p != record.pair).phase? p) = _
    rw [PhaseStore.phase?_awake, PhaseStore.phase?_save, PhaseStore.phase?_awake]
    by_cases hp : record.pair = p
    · subst hp
      simp [hphase]
    · simp [hp, Ne.symm hp]
  · -- Other calls may have the same record to merge still. It is what is stored by now.
    intro b hb r hr hr' hawake
    have hpair : r.pair = record.pair := by simpa [hr'] using hawake
    have hstored := hpending b hb r hr hr'
    rw [hpair, hphase] at hstored
    refine ⟨r.phase, ?_, .refl⟩
    rw [PhaseStore.phase?_save, if_pos hpair.symm]
    exact hstored
  · intro p hp
    obtain ⟨hp, hne⟩ := Bool.and_eq_true_iff.1 hp
    exact Tracker.find?_add_eq_none (hs.untracked p hp) (bne_iff_ne.1 hne).symm
  · intro b hb r hr hr'
    exact hpending b hb r hr (Bool.and_eq_true_iff.1 hr').1
  · intro b hb hloaded pair p hpair hp
    obtain ⟨hpair, hne⟩ := Bool.and_eq_true_iff.1 hpair
    rcases List.mem_or_eq_of_mem_set hb with hb | rfl
    · exact hs.covered b hb hloaded pair p hpair hp
    · -- The record that is taken over is that of another pair.
      have hmerge := hs.covered _ hmem rfl pair p hpair hp
      refine (List.mem_cons.1 hmerge).resolve_left fun heq => ?_
      exact (bne_iff_ne.1 hne) (congrArg PhaseRecord.pair heq)

end TakeUp

/-- What is stored for a pair that is asleep stays, unless its ring is deleted. -/
theorem phase?_of_asleep (hs : s.Waking asleep) (hn : s.activities[n]? = some a)
    (hmoves : a.Moves n s.tracker reply t' next) {pair : Participation}
    (hasleep : asleep pair = true) :
    t'.store.phase? pair = s.tracker.store.phase? pair ∨
      ∃ locked, a = .deleting pair.ring locked ∧ t'.store.phase? pair = none := by
  rcases hmoves.phase?_cases pair with hsame | ⟨p, hsave, -⟩ | ⟨locked, heq, -, hnone⟩
  · exact Or.inl hsame
  · rw [hs.asleep_of_save hn hsave] at hasleep
    cases hasleep
  · exact Or.inr ⟨locked, heq, hnone⟩

/-- A step that wakes no pair keeps the session waking. -/
theorem of_moves_of_awake (hs : s.Waking asleep) (hn : s.activities[n]? = some a)
    (honest : s.tracker.store.MayAnswer a.request? reply)
    (hmoves : a.Moves n s.tracker reply t' next)
    (hcalm : s.Undisturbed ⟨t', s.activities.set n next⟩) (hload : a ≠ .loading)
    (hbegun : ∀ pair, a = .beginning pair → asleep pair = false)
    (hmerged : ∀ count record rest, a = .merging count (record :: rest) →
      asleep record.pair = false) :
    Waking asleep ⟨t', s.activities.set n next⟩ := by
  have hmem : a ∈ s.activities := List.mem_of_getElem? hn
  have hstored : ∀ b ∈ s.activities, ∀ r ∈ b.pending, asleep r.pair = true →
      t'.store.phase? r.pair = s.tracker.store.phase? r.pair := by
    intro b hb r hr hasleep
    rcases hs.phase?_of_asleep hn hmoves hasleep with hsame | ⟨locked, rfl, -⟩
    · exact hsame
    · exact absurd rfl ((hcalm _ hmem _ rfl).1 b hb r hr)
  have hold : ∀ pair p, asleep pair = true → t'.store.phase? pair = some p →
      s.tracker.store.phase? pair = some p := by
    intro pair p hasleep hp
    rcases hs.phase?_of_asleep hn hmoves hasleep with hsame | ⟨locked, -, hnone⟩
    · exact hsame.symm.trans hp
    · rw [hnone] at hp
      cases hp
  refine hs.keep ?_ ?_ hold hstored ?_ ?_
  · have hrequest : a.request? ≠ some .load := fun h => hload (Activity.eq_loading_of_request? h)
    have hawake := hmoves.awake hload (fun r hr => hs.asleep_of_save hn hr) hmerged
    have hcalm' : (s.awake asleep).Undisturbed (awake asleep ⟨t', s.activities.set n next⟩) :=
      hcalm.awake
    rw [awake_set] at hcalm' ⊢
    refine hs.coherent.of_moves (getElem?_awake hn asleep) ?_ hawake hcalm'
    rw [Activity.request?_awake]
    exact honest.of_ne_load hrequest _
  · intro pair hasleep
    refine hmoves.find?_eq_none (hs.untracked pair hasleep) ?_ ?_
    · rintro rfl
      rw [hbegun pair rfl] at hasleep
      cases hasleep
    · rintro count record rest rfl rfl
      rw [hmerged count record rest rfl] at hasleep
      cases hasleep
  · intro r hr hasleep
    have hbefore : r ∈ a.pending := hmoves.pending_subset hload hr
    exact (hstored a hmem r hbefore hasleep).trans (hs.pending a hmem r hbefore hasleep)
  · intro hnext pair p hasleep hp
    obtain ⟨hloaded, hrest⟩ := hmoves.hasLoaded hload hnext
    have hmerge := hs.covered a hmem hloaded pair p hasleep hp
    -- A record that has found its cell, or gets one, is of a pair that is awake.
    rcases hrest _ hmerge with hlater | ⟨count, rest, rfl⟩ | ⟨count, rest, cell, rfl⟩
    · exact hlater
    · rw [hmerged count _ rest rfl] at hasleep
      cases hasleep
    · obtain ⟨-, c, hc, hpair, hlive⟩ := hs.coherent.grounded n _ (getElem?_awake hn asleep)
      have hawake : asleep c.pair = false := hs.asleep_eq_false hc hlive
      rw [hpair] at hawake
      cases hasleep.symm.trans hawake

/-- Every step keeps the session waking, if whoever begins a pair is aware of what is stored for it
and the forgetting of rings is not disturbed. -/
theorem of_moves (hs : s.Waking asleep) (hn : s.activities[n]? = some a)
    (honest : s.tracker.store.MayAnswer a.request? reply)
    (hmoves : a.Moves n s.tracker reply t' next)
    (hcalm : s.Undisturbed ⟨t', s.activities.set n next⟩) (haware : a.Aware s.tracker) :
    ∃ asleep', Waking asleep' ⟨t', s.activities.set n next⟩ := by
  cases a with
  | loading =>
    cases hmoves with
    | load => exact ⟨_, hs.load hn honest⟩
    | refuseLoad =>
      refine ⟨_, hs.keep ?_ hs.untracked (fun _ _ _ hp => hp) (fun _ _ _ _ _ => rfl)
        (fun r hr => absurd hr List.not_mem_nil) nofun⟩
      rw [awake_set]
      exact hs.coherent.look (getElem?_awake hn asleep) trivial rfl rfl
  | beginning pair =>
    cases hpair : asleep pair with
    | false =>
      refine ⟨_, hs.of_moves_of_awake hn honest hmoves hcalm nofun ?_ nofun⟩
      rintro _ ⟨⟩
      exact hpair
    | true =>
      -- Nothing is stored for the pair, so it may wake before it is begun.
      have hnone := haware pair rfl (hs.untracked pair hpair)
      refine ⟨_, (hs.wake hnone).of_moves_of_awake hn honest hmoves hcalm nofun ?_ nofun⟩
      rintro _ ⟨⟩
      simp
  | merging count records =>
    cases hmoves with
    | mergedAll =>
      exact ⟨_, hs.of_moves_of_awake hn honest .mergedAll hcalm nofun nofun nofun⟩
    | mergeFound found =>
      refine ⟨_, hs.of_moves_of_awake hn honest (.mergeFound found) hcalm nofun nofun ?_⟩
      rintro _ _ _ ⟨⟩
      obtain ⟨c, hc, hlive, hpair⟩ := Tracker.find?_eq_some found
      rw [← hpair]
      exact hs.asleep_eq_false hc hlive
    | @mergeMissing _ record rest _ missing =>
      cases hasleep : asleep record.pair with
      | false =>
        refine ⟨_, hs.of_moves_of_awake hn honest (.mergeMissing missing) hcalm nofun nofun ?_⟩
        rintro _ _ _ ⟨⟩
        exact hasleep
      | true =>
        refine ⟨_, hs.takeUp hn hasleep fun b hb ring hring => ?_⟩
        exact (hcalm b hb ring hring).2 ⟨record.pair, record.phase, none, true⟩
          (by simp [Tracker.add])
  | _ => exact ⟨_, hs.of_moves_of_awake hn honest hmoves hcalm (by simp) (by simp) (by simp)⟩

/-- Once a call has recovered, memory and store are in step as if there had been no restart. -/
theorem coherent_of_recovered (hs : s.Waking asleep) (hrecovered : s.Recovered) : s.Coherent := by
  obtain ⟨a, hmem, ha⟩ := hrecovered
  obtain ⟨count, rfl⟩ : ∃ count, a = .finished (.recovered count) := by
    unfold Activity.hasRecovered at ha
    split at ha
    · exact ⟨_, rfl⟩
    · cases ha
  -- The call has nothing left to merge, so no pair that is asleep is stored.
  have hunstored : ∀ pair, asleep pair = true → s.tracker.store.phase? pair = none := by
    intro pair hasleep
    cases hp : s.tracker.store.phase? pair with
    | none => rfl
    | some p => exact absurd (hs.covered _ hmem rfl pair p hasleep hp) List.not_mem_nil
  have hawake : Coherent ⟨s.tracker, s.activities.map (Activity.awake fun _ => false)⟩ := by
    refine hs.coherent.of_awake (fun pair => ?_) fun b hb r hr hasleep _ => ?_
    · refine ((PhaseStore.phase?_awake ..).trans ?_).symm
      cases hasleep : asleep pair with
      | false => rfl
      | true => exact (hunstored pair hasleep).symm
    · have hstored := hs.pending b hb r hr hasleep
      rw [hunstored r.pair hasleep] at hstored
      cases hstored
  have hsame : s.activities.map (Activity.awake fun _ => false) = s.activities := by
    refine List.map_id'' (fun a => ?_) s.activities
    cases a with
    | merging count records => simp [Activity.awake]
    | adopting count record rest cell => simp [Activity.awake]
    | _ => rfl
  rwa [hsame] at hawake

/-- What is stored for a pair goes on with every step, unless the records of its ring are deleted. -/
theorem goesOn_of_moves (hs : s.Waking asleep) (hn : s.activities[n]? = some a)
    (hmoves : a.Moves n s.tracker reply t' next) (pair : Participation) :
    s.tracker.store.GoesOn pair t'.store ∨
      ∃ locked, a = .deleting pair.ring locked ∧ reply = .done ∧ t'.store.phase? pair = none := by
  rcases hmoves.phase?_cases pair with hsame | ⟨q, hsave, hq⟩ | hdeleted
  · exact Or.inl (Or.inl hsame)
  · have hawake : asleep pair = false := hs.asleep_of_save hn hsave
    have hrequest : (a.awake asleep).request? = some (.save ⟨pair, q⟩) := by
      rwa [Activity.request?_awake]
    have hfollows := History.save_follows hs.coherent (getElem?_awake hn asleep) hrequest
    rw [phase?_of_awake s hawake] at hfollows
    rcases hfollows with ⟨hnone, rfl⟩ | ⟨p, hp, hmove⟩
    · exact Or.inl (Or.inr (Or.inl ⟨hnone, hq⟩))
    · exact Or.inl (Or.inr (Or.inr ⟨p, q, hp, hq, hmove⟩))
  · exact Or.inr hdeleted

end Waking

end Session

end ReplicaRing
