import ReplicaRing.Proofs.Phases
import ReplicaRing.Proofs.Trackers.Histories

/-!
# Memory and store in step

At rest, a pair is kept in memory exactly if it is stored, in the same phase
(`Tracker.InStep`). While calls are in flight, what is kept in a live cell is stored as well, but
for cells whose holder has still to save the pair, or has just deleted it (`Session.Coherent`). What a
call relies on from one step to the next is said for each activity (`Activity.Grounded`).

A step keeps a session coherent if it leaves alone what others rely on (`Tracker.Spares`,
`Tracker.Keeps`) and does its own part (`Session.Coherent.of_spares`). The one thing that stands in
the way is the forgetting of a ring (`Session.Undisturbed`): from when the cells of the ring are
gathered until they have left the table, none may be added for it, and no call may have records of
it to merge that it loaded before.
-/

namespace ReplicaRing

/-- A record from which the phase that is stored by now was reached. -/
def PhaseStore.Outran (s : PhaseStore) (record : PhaseRecord) : Prop :=
  ∃ p, s.phase? record.pair = some p ∧ record.phase.Reaches p

namespace Tracker

/-- Nobody holds a lock, and what is kept in memory is what is stored. -/
structure InStep (t : Tracker) : Prop where
  free : ∀ c ∈ t.cells, c.holder = none
  single : t.Single
  same : ∀ pair, t.held? pair = t.store.phase? pair

/-- All cells at some places belong to a ring, and a call holds their locks. -/
def HoldsAll (t : Tracker) (me : Nat) (ring : RingVersion) (places : List Nat) : Prop :=
  ∀ i ∈ places, ∃ c : Cell, t.cells[i]? = some c ∧ c.holder = some me ∧ c.pair.ring = ring

/-- All live cells of a ring are at some places. -/
def LiveWithin (t : Tracker) (ring : RingVersion) (places : List Nat) : Prop :=
  ∀ (i : Nat) (c : Cell), t.cells[i]? = some c → c.live = true → c.pair.ring = ring → i ∈ places

end Tracker

namespace Activity

/-- The places of the cells whose locks a call holds. -/
def locks : Activity → List Nat
  | savingNew _ cell | withdrawing _ cell _ | checkingMove _ _ cell | savingMove _ _ cell => [cell]
  | lockingAll _ _ locked | deleting _ locked | clearing _ locked => locked
  | _ => []

/-- Whether the pairs of the locked cells are not stored: not yet, or no more. -/
def unstored : Activity → Bool
  | savingNew .. | withdrawing .. | clearing .. => true
  | _ => false

/-- The ring that is being forgotten, from when its cells have been gathered. -/
def forgets? : Activity → Option RingVersion
  | lockingAll ring _ _ | deleting ring _ | clearing ring _ => some ring
  | _ => none

/-- The records that a call has loaded and has still to merge. -/
def pending : Activity → List PhaseRecord
  | merging _ records => records
  | adopting _ record rest _ => record :: rest
  | _ => []

/-- What a call relies on in the midst of an activity. -/
def Grounded (t : Tracker) (me : Nat) : Activity → Prop
  | savingNew pair cell | withdrawing pair cell _ =>
    t.cells[cell]? = some ⟨pair, .initial, some me, true⟩ ∧ t.store.phase? pair = none
  | lockingMove pair _ cell => ∃ c : Cell, t.cells[cell]? = some c ∧ c.pair = pair
  | checkingMove pair _ cell =>
    ∃ c : Cell, t.cells[cell]? = some c ∧ c.pair = pair ∧ c.holder = some me
  | savingMove pair target cell =>
    ∃ c : Cell, t.cells[cell]? = some c ∧ c.pair = pair ∧ c.holder = some me ∧ c.live = true ∧
      c.phase.canMove target = true
  | lockingAll ring waiting locked =>
    t.HoldsAll me ring locked ∧ t.LiveWithin ring (waiting ++ locked) ∧
      ∀ i ∈ waiting, ∃ c : Cell, t.cells[i]? = some c ∧ c.pair.ring = ring
  | deleting ring locked => t.HoldsAll me ring locked ∧ t.LiveWithin ring locked
  | clearing ring locked =>
    t.HoldsAll me ring locked ∧ t.LiveWithin ring locked ∧
      ∀ pair, pair.ring = ring → t.store.phase? pair = none
  | merging _ records => ∀ r ∈ records, t.store.Outran r
  | adopting _ record rest cell =>
    (∀ r ∈ record :: rest, t.store.Outran r) ∧
      ∃ c : Cell, t.cells[cell]? = some c ∧ c.pair = record.pair ∧ c.live = true
  | _ => True

end Activity

namespace Session

/-- Memory and store are in step but for what the holders of locks have still to do. -/
structure Coherent (s : Session) : Prop where
  grounded : ∀ (n : Nat) (a : Activity), s.activities[n]? = some a → a.Grounded s.tracker n
  /-- Who holds a lock knows of it. -/
  locked : ∀ (i : Nat) (c : Cell) (n : Nat), s.tracker.cells[i]? = some c → c.holder = some n →
    ∃ a, s.activities[n]? = some a ∧ i ∈ a.locks
  single : s.tracker.Single
  /-- What is kept in a live cell is stored, unless its holder says otherwise. -/
  stored : ∀ (i : Nat) (c : Cell), s.tracker.cells[i]? = some c → c.live = true →
    (∀ n a, c.holder = some n → s.activities[n]? = some a → a.unstored = false) →
    s.tracker.store.phase? c.pair = some c.phase
  /-- What is stored has a live cell. -/
  tracked : ∀ pair p, s.tracker.store.phase? pair = some p →
    ∃ (i : Nat) (c : Cell), s.tracker.cells[i]? = some c ∧ c.live = true ∧ c.pair = pair

/-- From one session to the next, nothing happens that the forgetting of a ring does not reckon
with: no cell is added for the ring, and no call has records of it to merge. -/
def Undisturbed (s s' : Session) : Prop :=
  ∀ a ∈ s.activities, ∀ ring, a.forgets? = some ring →
    (∀ b ∈ s.activities, ∀ r ∈ b.pending, r.pair.ring ≠ ring) ∧
      ∀ c ∈ s'.tracker.cells.drop s.tracker.cells.length, c.pair.ring ≠ ring

instance (s s' : Session) : Decidable (s.Undisturbed s') :=
  inferInstanceAs (Decidable (∀ a ∈ s.activities, ∀ ring ∈ a.forgets?,
    (∀ b ∈ s.activities, ∀ r ∈ b.pending, r.pair.ring ≠ ring) ∧
      ∀ c ∈ s'.tracker.cells.drop s.tracker.cells.length, c.pair.ring ≠ ring))

end Session

/-! ### What a step spares -/

/-- No other call holds the lock of a cell. -/
def Cell.OpenTo (c : Cell) (n : Nat) : Prop :=
  ∀ m, c.holder = some m → m = n

theorem Cell.openTo_of_free {c : Cell} (h : c.holder = none) (n : Nat) : c.OpenTo n := by
  intro m hm
  rw [h] at hm
  cases hm

theorem Cell.openTo_of_mine {c : Cell} {n : Nat} (h : c.holder = some n) : c.OpenTo n :=
  fun _ hm => (Option.some.inj (h.symm.trans hm)).symm

namespace Tracker

/-- What every step of a call leaves alone: the pairs of cells, dead cells, and the cells whose locks
others hold. Only pairs with a live cell whose lock it holds are stored or deleted. -/
structure Spares (n : Nat) (t t' : Tracker) : Prop where
  old : ∀ (i : Nat) (c : Cell), t.cells[i]? = some c → ∃ c' : Cell, t'.cells[i]? = some c' ∧
    c'.pair = c.pair ∧ (c'.live = true → c.live = true) ∧ (c' = c ∨ c.OpenTo n ∧ c'.OpenTo n)
  new : ∀ (i : Nat) (c' : Cell), t'.cells[i]? = some c' → t.cells[i]? = none →
    c' ∈ t'.cells.drop t.cells.length ∧ c'.OpenTo n
  store : ∀ pair, t'.store.phase? pair = t.store.phase? pair ∨ ∃ (i : Nat) (c : Cell),
    t.cells[i]? = some c ∧ c.live = true ∧ c.pair = pair ∧ c.holder = some n

/-- What is stored for a pair only goes further on, and its cell stays live. -/
structure Keeps (pair : Participation) (t t' : Tracker) : Prop where
  further : ∀ p, t.store.phase? pair = some p →
    ∃ q, t'.store.phase? pair = some q ∧ p.Reaches q
  live : ∀ (i : Nat) (c c' : Cell), t.cells[i]? = some c → t'.cells[i]? = some c' →
    c.pair = pair → c.live = true → t.store.phase? pair ≠ none → c'.live = true

variable {n : Nat} {t t' : Tracker}

theorem Keeps.refl (pair : Participation) (t : Tracker) : Keeps pair t t where
  further p hp := ⟨p, hp, .refl⟩
  live i c c' hc hc' _ hlive _ := by
    obtain rfl := Option.some.inj (hc.symm.trans hc')
    exact hlive

theorem Keeps.outran {r : PhaseRecord} (h : Keeps r.pair t t') (houtran : t.store.Outran r) :
    t'.store.Outran r := by
  obtain ⟨p, hp, hreach⟩ := houtran
  obtain ⟨q, hq, hfurther⟩ := h.further p hp
  exact ⟨q, hq, hreach.trans hfurther⟩

/-- A cell of which another call holds the lock stays as it is. -/
theorem Spares.cell_eq (h : t.Spares n t') {i m : Nat} {c : Cell} (hc : t.cells[i]? = some c)
    (hholder : c.holder = some m) (hm : m ≠ n) : t'.cells[i]? = some c := by
  obtain ⟨c', hc', -, -, rfl | ⟨hopen, -⟩⟩ := h.old i c hc
  · exact hc'
  · exact absurd (hopen m hholder) hm

/-- A cell of which another call holds the lock was as it is before the step. -/
theorem Spares.cell_eq_of_not_openTo (h : t.Spares n t') {i : Nat} {c' : Cell}
    (hc' : t'.cells[i]? = some c') (hheld : ¬ c'.OpenTo n) : t.cells[i]? = some c' := by
  cases hc : t.cells[i]? with
  | none => exact absurd (h.new i c' hc' hc).2 hheld
  | some c =>
    obtain ⟨d, hd, -, -, heq⟩ := h.old i c hc
    obtain rfl := Option.some.inj (hc'.symm.trans hd)
    rw [heq.resolve_right fun hopen => hheld hopen.2]

/-- Cells that were there before have the pairs and stay dead as before. -/
theorem Spares.exists_old (h : t.Spares n t') {i : Nat} {c c' : Cell} (hc : t.cells[i]? = some c)
    (hc' : t'.cells[i]? = some c') : c'.pair = c.pair ∧ (c'.live = true → c.live = true) := by
  obtain ⟨d, hd, hpair, hlive, -⟩ := h.old i c hc
  obtain rfl := Option.some.inj (hc'.symm.trans hd)
  exact ⟨hpair, hlive⟩

/-- A step that adds no cell makes no second live cell for a pair. -/
theorem Spares.single (h : t.Spares n t') (hsingle : t.Single)
    (hold : ∀ i : Nat, t.cells[i]? = none → t'.cells[i]? = none) : t'.Single := by
  have hbefore : ∀ {i : Nat} {c' : Cell}, t'.cells[i]? = some c' → ∃ c, t.cells[i]? = some c := by
    intro i c' hc'
    rw [← Option.ne_none_iff_exists']
    intro hnone
    rw [hold i hnone] at hc'
    cases hc'
  intro i j c' d' hc' hd' hlive hlive' hpair
  obtain ⟨c, hc⟩ := hbefore hc'
  obtain ⟨d, hd⟩ := hbefore hd'
  obtain ⟨hcpair, hclive⟩ := h.exists_old hc hc'
  obtain ⟨hdpair, hdlive⟩ := h.exists_old hd hd'
  exact hsingle i j c d hc hd (hclive hlive) (hdlive hlive')
    (hcpair.symm.trans (hpair.trans hdpair))

theorem Spares.liveWithin (h : t.Spares n t') {ring : RingVersion} {places : List Nat}
    (hnew : ∀ c ∈ t'.cells.drop t.cells.length, c.pair.ring ≠ ring)
    (hwithin : t.LiveWithin ring places) : t'.LiveWithin ring places := by
  intro i c' hc' hlive hring
  cases hc : t.cells[i]? with
  | none => exact absurd hring (hnew c' (h.new i c' hc' hc).1)
  | some c =>
    obtain ⟨hpair, hclive⟩ := h.exists_old hc hc'
    exact hwithin i c hc (hclive hlive) (by rw [← hpair, hring])

theorem Spares.holdsAll (h : t.Spares n t') {m : Nat} (hm : m ≠ n) {ring : RingVersion}
    {places : List Nat} (hholds : t.HoldsAll m ring places) : t'.HoldsAll m ring places := by
  intro i hi
  obtain ⟨c, hc, hholder, hring⟩ := hholds i hi
  exact ⟨c, h.cell_eq hc hholder hm, hholder, hring⟩

/-- What is not stored and has no live cell that the call holds stays unstored. -/
theorem Spares.phase?_eq_none (h : t.Spares n t') {pair : Participation}
    (hnone : t.store.phase? pair = none)
    (hother : ∀ (i : Nat) (c : Cell), t.cells[i]? = some c → c.live = true → c.pair = pair →
      c.holder ≠ some n) : t'.store.phase? pair = none := by
  rcases h.store pair with heq | ⟨i, c, hc, hlive, hpair, hholder⟩
  · rw [heq, hnone]
  · exact absurd hholder (hother i c hc hlive hpair)

end Tracker

/-- What another call relies on is still true after a step that disturbs nothing. -/
theorem Activity.Grounded.of_spares {n m : Nat} {t t' : Tracker} {a : Activity}
    (h : a.Grounded t m) (hspares : t.Spares n t') (hm : m ≠ n) (hsingle : t.Single)
    (hforgets : ∀ ring, a.forgets? = some ring →
      ∀ c ∈ t'.cells.drop t.cells.length, c.pair.ring ≠ ring)
    (hkeeps : ∀ r ∈ a.pending, Tracker.Keeps r.pair t t') : a.Grounded t' m := by
  have hnew : ∀ (pair : Participation) (cell : Nat),
      t.cells[cell]? = some ⟨pair, .initial, some m, true⟩ ∧ t.store.phase? pair = none →
        t'.cells[cell]? = some ⟨pair, .initial, some m, true⟩ ∧ t'.store.phase? pair = none := by
    rintro pair cell ⟨hcell, hnone⟩
    refine ⟨hspares.cell_eq hcell rfl hm, hspares.phase?_eq_none hnone ?_⟩
    intro i c hc hlive hpair hholder
    obtain rfl := hsingle i cell c _ hc hcell hlive rfl hpair
    obtain rfl := Option.some.inj (hc.symm.trans hcell)
    exact hm (Option.some.inj hholder)
  cases a with
  | savingNew pair cell => exact hnew pair cell h
  | withdrawing pair cell reason => exact hnew pair cell h
  | lockingMove pair target cell =>
    obtain ⟨c, hc, hpair⟩ := h
    obtain ⟨c', hc', hpair', -⟩ := hspares.old cell c hc
    exact ⟨c', hc', hpair'.trans hpair⟩
  | checkingMove pair target cell =>
    obtain ⟨c, hc, hpair, hholder⟩ := h
    exact ⟨c, hspares.cell_eq hc hholder hm, hpair, hholder⟩
  | savingMove pair target cell =>
    obtain ⟨c, hc, hpair, hholder, hrest⟩ := h
    exact ⟨c, hspares.cell_eq hc hholder hm, hpair, hholder, hrest⟩
  | lockingAll ring waiting locked =>
    obtain ⟨hholds, hwithin, hwaiting⟩ := h
    refine ⟨hspares.holdsAll hm hholds, hspares.liveWithin (hforgets ring rfl) hwithin, ?_⟩
    intro i hi
    obtain ⟨c, hc, hring⟩ := hwaiting i hi
    obtain ⟨c', hc', hpair, -⟩ := hspares.old i c hc
    exact ⟨c', hc', by rw [hpair, hring]⟩
  | deleting ring locked =>
    exact ⟨hspares.holdsAll hm h.1, hspares.liveWithin (hforgets ring rfl) h.2⟩
  | clearing ring locked =>
    obtain ⟨hholds, hwithin, hnone⟩ := h
    refine ⟨hspares.holdsAll hm hholds, hspares.liveWithin (hforgets ring rfl) hwithin, ?_⟩
    intro pair hring
    refine hspares.phase?_eq_none (hnone pair hring) ?_
    intro i c hc hlive hpair hholder
    -- The cell is one of those that are locked for the forgetting.
    obtain ⟨d, hd, hd', -⟩ := hholds i (hwithin i c hc hlive (by rw [hpair, hring]))
    obtain rfl := Option.some.inj (hc.symm.trans hd)
    exact hm (Option.some.inj (hd'.symm.trans hholder))
  | merging count records => exact fun r hr => (hkeeps r hr).outran (h r hr)
  | adopting count record rest cell =>
    obtain ⟨houtran, c, hc, hpair, hlive⟩ := h
    obtain ⟨c', hc', hpair', -⟩ := hspares.old cell c hc
    refine ⟨fun r hr => (hkeeps r hr).outran (houtran r hr), c', hc', hpair'.trans hpair, ?_⟩
    refine (hkeeps record (List.mem_cons_self ..)).live cell c c' hc hc' hpair hlive ?_
    obtain ⟨p, hp, -⟩ := houtran record (List.mem_cons_self ..)
    rw [hp]
    exact Option.some_ne_none p
  | beginning | joining | joined | moving | asking | reading | confirming | gathering | loading
  | finished => trivial

namespace Session

variable {s : Session} {n : Nat} {a next : Activity} {t' : Tracker}

theorem getElem?_set_of_some (hn : s.activities[n]? = some a) (next : Activity) (m : Nat) :
    (s.activities.set n next)[m]? = if m = n then some next else s.activities[m]? := by
  obtain ⟨hlt, -⟩ := List.getElem?_eq_some_iff.1 hn
  by_cases h : m = n
  · subst h
    rw [List.getElem?_set_self hlt, if_pos rfl]
  · rw [List.getElem?_set_ne (Ne.symm h), if_neg h]

namespace Coherent

/-- A step keeps the session coherent if it spares what others rely on and leaves memory and store
in step where its own call is concerned. -/
theorem of_spares (hs : s.Coherent) (hn : s.activities[n]? = some a)
    (hspares : s.tracker.Spares n t')
    (hforgets : ∀ b ∈ s.activities, ∀ ring, b.forgets? = some ring →
      ∀ c ∈ t'.cells.drop s.tracker.cells.length, c.pair.ring ≠ ring)
    (hkeeps : ∀ b ∈ s.activities, ∀ r ∈ b.pending, Tracker.Keeps r.pair s.tracker t')
    (hground : next.Grounded t' n)
    (hlocks : ∀ (i : Nat) (c : Cell), t'.cells[i]? = some c → c.holder = some n → i ∈ next.locks)
    (hsingle : t'.Single)
    (hstored : ∀ (i : Nat) (c : Cell), t'.cells[i]? = some c → c.live = true → c.OpenTo n →
      (c.holder = some n → next.unstored = false) → t'.store.phase? c.pair = some c.phase)
    (htracked : ∀ pair p, t'.store.phase? pair = some p →
      ∃ (i : Nat) (c : Cell), t'.cells[i]? = some c ∧ c.live = true ∧ c.pair = pair) :
    Coherent ⟨t', s.activities.set n next⟩ where
  grounded m b hb := by
    rw [getElem?_set_of_some hn] at hb
    split at hb
    · rename_i hm
      obtain rfl := Option.some.inj hb
      rw [hm]
      exact hground
    · rename_i hm
      have hmem := List.mem_of_getElem? hb
      exact (hs.grounded m b hb).of_spares hspares hm hs.single (hforgets b hmem) (hkeeps b hmem)
  locked i c' m hc' hholder := by
    rw [getElem?_set_of_some hn]
    by_cases hm : m = n
    · rw [if_pos hm]
      rw [hm] at hholder
      exact ⟨next, rfl, hlocks i c' hc' hholder⟩
    · rw [if_neg hm]
      have hc := hspares.cell_eq_of_not_openTo hc' fun hopen => hm (hopen m hholder)
      exact hs.locked i c' m hc hholder
  single := hsingle
  stored i c' hc' hlive hsettled := by
    simp only [getElem?_set_of_some hn] at hsettled
    by_cases hopen : c'.OpenTo n
    · exact hstored i c' hc' hlive hopen fun hholder => hsettled n next hholder (if_pos rfl)
    · -- The cell is locked by another call, which has taken no step.
      obtain ⟨m, hholder, hm⟩ : ∃ m, c'.holder = some m ∧ m ≠ n := by
        simpa [Cell.OpenTo] using hopen
      have hc := hspares.cell_eq_of_not_openTo hc' hopen
      have hbefore := hs.stored i c' hc hlive fun m' b hm' hb => by
        obtain rfl := Option.some.inj (hholder.symm.trans hm')
        exact hsettled m b hholder (by rw [if_neg hm, hb])
      rcases hspares.store c'.pair with hsame | ⟨j, e, he, helive, hpair, heholder⟩
      · exact hsame.trans hbefore
      · obtain rfl := hs.single j i e c' he hc helive hlive hpair
        obtain rfl := Option.some.inj (he.symm.trans hc)
        exact absurd (Option.some.inj (hholder.symm.trans heholder)) hm
  tracked := htracked

end Coherent

end Session

end ReplicaRing
