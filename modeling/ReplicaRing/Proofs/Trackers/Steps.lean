import ReplicaRing.Proofs.Trackers.Coherence

/-!
# Steps keep memory and store in step

Each step of a call keeps a session coherent, as long as it does not disturb the forgetting of a
ring (`Session.Coherent.of_moves`). Most steps only look, or take or leave a lock. Those that write
are taken one by one: a pair is made, saved or withdrawn, moved on, deleted with its ring, taken out
with its ring. To recover a record never writes: in a coherent session every stored pair is kept
already, and in no phase that its record would lead further.
-/

namespace ReplicaRing

/-! ### Steps that add no cell -/

namespace Tracker

variable {n : Nat} {t t' : Tracker} {f : Nat → Cell → Cell}

theorem length_le_of_cells (hcells : ∀ i : Nat, t'.cells[i]? = t.cells[i]?.map (f i)) :
    t'.cells.length ≤ t.cells.length := by
  rw [← List.getElem?_eq_none_iff, hcells, List.getElem?_eq_none (Nat.le_refl _)]
  rfl

/-- What is to be shown of a step that adds no cell, where `f` says what becomes of each. -/
theorem Spares.of_cells (hcells : ∀ i : Nat, t'.cells[i]? = t.cells[i]?.map (f i))
    (hold : ∀ (i : Nat) (c : Cell), t.cells[i]? = some c → (f i c).pair = c.pair ∧
      ((f i c).live = true → c.live = true) ∧ (f i c = c ∨ c.OpenTo n ∧ (f i c).OpenTo n))
    (hstore : ∀ pair, t'.store.phase? pair = t.store.phase? pair ∨ ∃ (i : Nat) (c : Cell),
      t.cells[i]? = some c ∧ c.live = true ∧ c.pair = pair ∧ c.holder = some n) :
    t.Spares n t' where
  old i c hc := ⟨f i c, by rw [hcells, hc]; rfl, hold i c hc⟩
  new i c hc hnone := by
    rw [hcells, hnone] at hc
    cases hc
  store := hstore

end Tracker

namespace Session

variable {s : Session} {n : Nat} {a next : Activity} {t' : Tracker} {f : Nat → Cell → Cell}

namespace Coherent

/-- What is kept in a live cell that no other call has locked is stored. -/
theorem stored_of_openTo (hs : s.Coherent) (hn : s.activities[n]? = some a) {i : Nat} {c : Cell}
    (hc : s.tracker.cells[i]? = some c) (hlive : c.live = true) (hopen : c.OpenTo n)
    (hmine : c.holder = some n → a.unstored = false) :
    s.tracker.store.phase? c.pair = some c.phase := by
  refine hs.stored i c hc hlive fun m b hm hb => ?_
  obtain rfl := hopen m hm
  obtain rfl := Option.some.inj (hn.symm.trans hb)
  exact hmine hm

/-- What is kept in a live cell that nobody has locked is stored. -/
theorem stored_of_free (hs : s.Coherent) {i : Nat} {c : Cell}
    (hc : s.tracker.cells[i]? = some c) (hlive : c.live = true) (hfree : c.holder = none) :
    s.tracker.store.phase? c.pair = some c.phase := by
  refine hs.stored i c hc hlive fun m b hm _ => ?_
  rw [hfree] at hm
  cases hm

theorem mem_locks (hs : s.Coherent) (hn : s.activities[n]? = some a) {i : Nat} {c : Cell}
    (hc : s.tracker.cells[i]? = some c) (hholder : c.holder = some n) : i ∈ a.locks := by
  obtain ⟨b, hb, hmem⟩ := hs.locked i c n hc hholder
  obtain rfl := Option.some.inj (hn.symm.trans hb)
  exact hmem

theorem of_cells (hs : s.Coherent) (hn : s.activities[n]? = some a)
    (hcells : ∀ i : Nat, t'.cells[i]? = s.tracker.cells[i]?.map (f i))
    (hold : ∀ (i : Nat) (c : Cell), s.tracker.cells[i]? = some c → (f i c).pair = c.pair ∧
      ((f i c).live = true → c.live = true) ∧ (f i c = c ∨ c.OpenTo n ∧ (f i c).OpenTo n))
    (hstore : ∀ pair, t'.store.phase? pair = s.tracker.store.phase? pair ∨
      ∃ (i : Nat) (c : Cell), s.tracker.cells[i]? = some c ∧ c.live = true ∧ c.pair = pair ∧
        c.holder = some n)
    (hkeeps : ∀ b ∈ s.activities, ∀ r ∈ b.pending, Tracker.Keeps r.pair s.tracker t')
    (hground : next.Grounded t' n)
    (hlocks : ∀ (i : Nat) (c : Cell), s.tracker.cells[i]? = some c → (f i c).holder = some n →
      i ∈ next.locks)
    (hstored : ∀ (i : Nat) (c : Cell), s.tracker.cells[i]? = some c → (f i c).live = true →
      (f i c).OpenTo n → ((f i c).holder = some n → next.unstored = false) →
      t'.store.phase? c.pair = some (f i c).phase)
    (htracked : ∀ pair p, t'.store.phase? pair = some p → ∃ (i : Nat) (c : Cell),
      s.tracker.cells[i]? = some c ∧ (f i c).live = true ∧ c.pair = pair) :
    Coherent ⟨t', s.activities.set n next⟩ := by
  have hspares := Tracker.Spares.of_cells hcells hold hstore
  have hcell : ∀ (i : Nat) (c' : Cell), t'.cells[i]? = some c' →
      ∃ c, s.tracker.cells[i]? = some c ∧ f i c = c' := by
    intro i c' hc'
    rw [hcells, Option.map_eq_some_iff] at hc'
    exact hc'
  refine hs.of_spares hn hspares ?_ hkeeps hground ?_ (hspares.single hs.single ?_) ?_ ?_
  · intro b _ ring _ c hc
    rw [List.drop_eq_nil_of_le (Tracker.length_le_of_cells hcells)] at hc
    cases hc
  · intro i c' hc' hholder
    obtain ⟨c, hc, rfl⟩ := hcell i c' hc'
    exact hlocks i c hc hholder
  · intro i hnone
    rw [hcells, hnone]
    rfl
  · intro i c' hc' hlive hopen hmine
    obtain ⟨c, hc, rfl⟩ := hcell i c' hc'
    rw [(hold i c hc).1]
    exact hstored i c hc hlive hopen hmine
  · intro pair p hp
    obtain ⟨i, c, hc, hlive, hpair⟩ := htracked pair p hp
    exact ⟨i, f i c, by rw [hcells, hc]; rfl, hlive, (hold i c hc).1.trans hpair⟩

/-- A step that only looks. -/
theorem look (hs : s.Coherent) (hn : s.activities[n]? = some a)
    (hground : next.Grounded s.tracker n) (hlocks : next.locks = a.locks)
    (hunstored : next.unstored = a.unstored) :
    Coherent ⟨s.tracker, s.activities.set n next⟩ := by
  refine hs.of_cells (f := fun _ c => c) hn (fun i => by simp) (fun i c _ => ⟨rfl, id, Or.inl rfl⟩)
    (fun _ => Or.inl rfl) (fun _ _ r _ => .refl r.pair s.tracker) hground ?_ ?_ hs.tracked
  · intro i c hc hholder
    rw [hlocks]
    exact hs.mem_locks hn hc hholder
  · intro i c hc hlive hopen hmine
    exact hs.stored_of_openTo hn hc hlive hopen fun hholder => by rw [← hunstored, hmine hholder]

/-- A step that takes free locks, or leaves some of its own, on pairs that are stored. -/
theorem relock (holder : Nat → Cell → Option Nat) (hs : s.Coherent)
    (hn : s.activities[n]? = some a) (hstored : a.unstored = false)
    (hcells : ∀ i : Nat, t'.cells[i]? =
      s.tracker.cells[i]?.map fun c => { c with holder := holder i c })
    (hstore : t'.store = s.tracker.store)
    (hholder : ∀ (i : Nat) (c : Cell), s.tracker.cells[i]? = some c →
      holder i c = c.holder ∨ c.OpenTo n ∧ (holder i c = none ∨ holder i c = some n))
    (hground : next.Grounded t' n)
    (hlocks : ∀ (i : Nat) (c : Cell), s.tracker.cells[i]? = some c → holder i c = some n →
      i ∈ next.locks) :
    Coherent ⟨t', s.activities.set n next⟩ := by
  have hopen : ∀ (i : Nat) (c : Cell), s.tracker.cells[i]? = some c →
      ({ c with holder := holder i c } : Cell).OpenTo n → c.OpenTo n := by
    intro i c hc h
    rcases hholder i c hc with hsame | ⟨hopen, -⟩
    · intro m hm
      exact h m (hsame.trans hm)
    · exact hopen
  refine hs.of_cells hn hcells ?_ (fun pair => Or.inl (by rw [hstore])) ?_ hground hlocks ?_ ?_
  · intro i c hc
    refine ⟨rfl, id, ?_⟩
    rcases hholder i c hc with hsame | ⟨hopen, hnone | hmine⟩
    · exact Or.inl (by rw [hsame])
    · exact Or.inr ⟨hopen, Cell.openTo_of_free hnone n⟩
    · exact Or.inr ⟨hopen, Cell.openTo_of_mine hmine⟩
  · intro b _ r _
    constructor
    · intro p hp
      exact ⟨p, by rw [hstore, hp], .refl⟩
    · intro i c c' hc hc' _ hlive _
      rw [hcells, hc] at hc'
      obtain rfl := Option.some.inj hc'
      exact hlive
  · intro i c hc hlive h _
    rw [hstore]
    exact hs.stored_of_openTo hn hc hlive (hopen i c hc h) fun _ => hstored
  · intro pair p hp
    rw [hstore] at hp
    exact hs.tracked pair p hp

/-- The lock of a free cell is taken. -/
theorem take (hs : s.Coherent) (hn : s.activities[n]? = some a) (hstored : a.unstored = false)
    {cell : Nat} {c : Cell} (hc : s.tracker.cells[cell]? = some c) (hfree : c.holder = none)
    (hground : next.Grounded (s.tracker.update cell fun c => { c with holder := some n }) n)
    (hlocks : next.locks = cell :: a.locks) :
    Coherent ⟨s.tracker.update cell fun c => { c with holder := some n },
      s.activities.set n next⟩ := by
  refine hs.relock (fun i d => if i = cell then some n else d.holder) hn hstored
    (fun i => ?_) rfl ?_ hground ?_
  · rw [Tracker.cells_update]
    congr 1
    funext d
    by_cases hi : i = cell <;> simp [hi]
  · intro i d hd
    by_cases hi : i = cell
    · subst hi
      obtain rfl := Option.some.inj (hc.symm.trans hd)
      exact Or.inr ⟨Cell.openTo_of_free hfree n, Or.inr (if_pos rfl)⟩
    · exact Or.inl (if_neg hi)
  · intro i d hd hholder
    rw [hlocks]
    by_cases hi : i = cell
    · exact List.mem_cons.2 (Or.inl hi)
    · rw [if_neg hi] at hholder
      exact List.mem_cons.2 (Or.inr (hs.mem_locks hn hd hholder))

/-- A call that is over leaves the locks of its cells. -/
theorem leave (hs : s.Coherent) (hn : s.activities[n]? = some a) (hstored : a.unstored = false)
    (hmine : ∀ i ∈ a.locks, ∃ c : Cell, s.tracker.cells[i]? = some c ∧ c.holder = some n)
    (hcells : ∀ i : Nat, t'.cells[i]? =
      s.tracker.cells[i]?.map fun c => if i ∈ a.locks then { c with holder := none } else c)
    (hstore : t'.store = s.tracker.store) (outcome : Outcome) :
    Coherent ⟨t', s.activities.set n (.finished outcome)⟩ := by
  refine hs.relock (fun i d => if i ∈ a.locks then none else d.holder) hn hstored
    (fun i => ?_) hstore ?_ trivial ?_
  · rw [hcells]
    congr 1
    funext d
    by_cases hi : i ∈ a.locks <;> simp [hi]
  · intro i d hd
    by_cases hi : i ∈ a.locks
    · obtain ⟨c, hc, hholder⟩ := hmine i hi
      obtain rfl := Option.some.inj (hd.symm.trans hc)
      exact Or.inr ⟨Cell.openTo_of_mine hholder, Or.inl (if_pos hi)⟩
    · exact Or.inl (if_neg hi)
  · intro i d hd hholder
    by_cases hi : i ∈ a.locks
    · rw [if_pos hi] at hholder
      cases hholder
    · rw [if_neg hi] at hholder
      exact absurd (hs.mem_locks hn hd hholder) hi

/-- A call that is over leaves the lock of its only cell. -/
theorem leaveOne (hs : s.Coherent) (hn : s.activities[n]? = some a) (hstored : a.unstored = false)
    {cell : Nat} {c : Cell} (hlocks : a.locks = [cell]) (hc : s.tracker.cells[cell]? = some c)
    (hholder : c.holder = some n) (outcome : Outcome) :
    Coherent ⟨s.tracker.unlock cell, s.activities.set n (.finished outcome)⟩ := by
  refine hs.leave hn hstored (fun i hi => ?_) (fun i => ?_) ?_ outcome
  · rw [hlocks] at hi
    obtain rfl := List.mem_singleton.1 hi
    exact ⟨c, hc, hholder⟩
  · rw [hlocks]
    simp only [List.mem_singleton]
    exact Tracker.cells_update ..
  · rfl

/-- The next of the cells of a ring is locked. -/
theorem lockNext (hs : s.Coherent) {ring : RingVersion} {cell : Nat} {waiting locked : List Nat}
    (hn : s.activities[n]? = some (.lockingAll ring (cell :: waiting) locked)) {c : Cell}
    (found : s.tracker.cells[cell]? = some c) (free : c.holder = none) :
    Coherent ⟨s.tracker.update cell fun c => { c with holder := some n },
      s.activities.set n (.lockingAll ring waiting (cell :: locked))⟩ := by
  obtain ⟨hholds, hwithin, hwaiting⟩ := hs.grounded n _ hn
  obtain ⟨d, hd, hring⟩ := hwaiting cell (List.mem_cons_self ..)
  obtain rfl := Option.some.inj (found.symm.trans hd)
  have hcells := Tracker.cells_update s.tracker cell fun c => { c with holder := some n }
  refine hs.take hn rfl found free ⟨?_, ?_, ?_⟩ rfl
  · intro i hi
    by_cases hcell : i = cell
    · exact ⟨{ c with holder := some n }, by rw [hcells, hcell, found]; simp, rfl, hring⟩
    · have hi := (List.mem_cons.1 hi).resolve_left hcell
      obtain ⟨e, he, hholder, hering⟩ := hholds i hi
      exact ⟨e, by rw [hcells, he]; simp [hcell], hholder, hering⟩
  · intro i e he hlive hering
    rw [hcells, Option.map_eq_some_iff] at he
    obtain ⟨e, he, rfl⟩ := he
    have hmem := hwithin i e he (by split at hlive <;> exact hlive)
      (by split at hering <;> exact hering)
    simpa [or_assoc, or_comm, or_left_comm] using hmem
  · intro i hi
    obtain ⟨e, he, hering⟩ := hwaiting i (List.mem_cons_of_mem _ hi)
    exact ⟨_, by rw [hcells, he]; rfl, by split <;> exact hering⟩

/-! ### Steps that write -/

/-- What is not tracked is not stored. -/
theorem phase?_eq_none_of_find? (hs : s.Coherent) {pair : Participation}
    (hmissing : s.tracker.find? pair = none) : s.tracker.store.phase? pair = none := by
  cases hp : s.tracker.store.phase? pair with
  | none => rfl
  | some p =>
    obtain ⟨i, c, hc, hlive, hpair⟩ := hs.tracked pair p hp
    exact absurd hpair (Tracker.find?_eq_none.1 hmissing i c hc hlive)

/-- A cell is made for a pair that is not tracked. -/
theorem make (hs : s.Coherent) {pair : Participation}
    (hn : s.activities[n]? = some (.beginning pair)) (hmissing : s.tracker.find? pair = none)
    (hforgets : ∀ b ∈ s.activities, ∀ ring, b.forgets? = some ring → pair.ring ≠ ring) :
    Coherent ⟨s.tracker.add ⟨pair, .initial, some n, true⟩,
      s.activities.set n (.savingNew pair s.tracker.cells.length)⟩ := by
  set made : Cell := ⟨pair, .initial, some n, true⟩
  have hkeep : ∀ (i : Nat) (c : Cell), s.tracker.cells[i]? = some c →
      (s.tracker.add made).cells[i]? = some c := by
    intro i c hc
    obtain ⟨hlt, -⟩ := List.getElem?_eq_some_iff.1 hc
    rw [Tracker.cells_add, if_neg (Nat.ne_of_lt hlt), hc]
  have hcell : ∀ (i : Nat) (c : Cell), (s.tracker.add made).cells[i]? = some c →
      i = s.tracker.cells.length ∧ c = made ∨ s.tracker.cells[i]? = some c := by
    intro i c hc
    rw [Tracker.cells_add] at hc
    split at hc
    · rename_i hi
      exact Or.inl ⟨hi, (Option.some.inj hc).symm⟩
    · exact Or.inr hc
  refine hs.of_spares hn ⟨?_, ?_, fun _ => Or.inl rfl⟩ ?_ ?_ ?_ ?_ ?_ ?_ ?_
  · intro i c hc
    exact ⟨c, hkeep i c hc, rfl, id, Or.inl rfl⟩
  · intro i c hc hnone
    rcases hcell i c hc with ⟨-, rfl⟩ | hc
    · exact ⟨by simp [Tracker.add], fun m hm => (Option.some.inj hm).symm⟩
    · rw [hnone] at hc
      cases hc
  · intro b hb ring hring c hc
    obtain rfl : c = made := by simpa [Tracker.add] using hc
    exact hforgets b hb ring hring
  · intro b _ r _
    refine ⟨fun p hp => ⟨p, hp, .refl⟩, fun i c c' hc hc' _ hlive _ => ?_⟩
    obtain rfl := Option.some.inj ((hkeep i c hc).symm.trans hc')
    exact hlive
  · exact ⟨by rw [Tracker.cells_add, if_pos rfl], hs.phase?_eq_none_of_find? hmissing⟩
  · intro i c hc hholder
    rcases hcell i c hc with ⟨rfl, -⟩ | hc
    · exact List.mem_singleton_self _
    · exact absurd (hs.mem_locks hn hc hholder) List.not_mem_nil
  · exact hs.single.add hmissing
  · intro i c hc hlive hopen hmine
    rcases hcell i c hc with ⟨-, rfl⟩ | hc
    · exact absurd (hmine rfl) Bool.noConfusion
    · exact hs.stored_of_openTo hn hc hlive hopen fun _ => rfl
  · intro p q hq
    obtain ⟨i, c, hc, hlive, hpair⟩ := hs.tracked p q hq
    exact ⟨i, c, hkeep i c hc, hlive, hpair⟩

/-- The holder of a live cell has a phase saved, sets the cell to it and leaves the lock. -/
theorem save (hs : s.Coherent) (hn : s.activities[n]? = some a) {cell : Nat} {c : Cell}
    {target : Phase} (hc : s.tracker.cells[cell]? = some c) (hlive : c.live = true)
    (hholder : c.holder = some n) (hlocks : a.locks = [cell])
    (hreach : ∀ p, s.tracker.store.phase? c.pair = some p → p.Reaches target)
    (hcells : ∀ i : Nat, t'.cells[i]? = s.tracker.cells[i]?.map fun d =>
      if i = cell then { d with phase := target, holder := none } else d)
    (hstore : t'.store = s.tracker.store.save ⟨c.pair, target⟩) (outcome : Outcome) :
    Coherent ⟨t', s.activities.set n (.finished outcome)⟩ := by
  have hsame : ∀ (i : Nat) (d : Cell), s.tracker.cells[i]? = some d → d.live = true →
      c.pair = d.pair → i = cell := fun i d hd hdlive hpair =>
    hs.single i cell d c hd hc hdlive hlive hpair.symm
  have hheld : ∀ (i : Nat) (d : Cell), s.tracker.cells[i]? = some d → d.holder = some n →
      i = cell := by
    intro i d hd hdholder
    have hi := hs.mem_locks hn hd hdholder
    rwa [hlocks, List.mem_singleton] at hi
  refine hs.of_cells hn hcells ?_ ?_ ?_ trivial ?_ ?_ ?_
  · intro i d hd
    by_cases hi : i = cell
    · subst hi
      obtain rfl := Option.some.inj (hc.symm.trans hd)
      exact ⟨by simp, by simp, Or.inr ⟨Cell.openTo_of_mine hholder,
        Cell.openTo_of_free (by simp) n⟩⟩
    · simp [hi]
  · intro pair
    rw [hstore, PhaseStore.phase?_save]
    by_cases hpair : c.pair = pair
    · exact Or.inr ⟨cell, c, hc, hlive, hpair, hholder⟩
    · exact Or.inl (if_neg hpair)
  · intro b _ r _
    constructor
    · intro p hp
      rw [hstore, PhaseStore.phase?_save]
      by_cases hpair : c.pair = r.pair
      · exact ⟨target, if_pos hpair, hreach p (by rw [hpair, hp])⟩
      · exact ⟨p, by rw [if_neg hpair, hp], .refl⟩
    · intro i d d' hd hd' _ hdlive _
      rw [hcells, hd] at hd'
      obtain rfl := Option.some.inj hd'
      split <;> exact hdlive
  · intro i d hd hdholder
    by_cases hi : i = cell
    · simp [hi] at hdholder
    · rw [if_neg hi] at hdholder
      exact absurd (hheld i d hd hdholder) hi
  · intro i d hd hdlive hopen _
    rw [hstore, PhaseStore.phase?_save]
    by_cases hi : i = cell
    · subst hi
      obtain rfl := Option.some.inj (hc.symm.trans hd)
      simp
    · rw [if_neg hi] at hdlive hopen
      rw [if_neg fun hpair => hi (hsame i d hd hdlive hpair), if_neg hi]
      exact hs.stored_of_openTo hn hd hdlive hopen fun hdholder =>
        absurd (hheld i d hd hdholder) hi
  · intro pair p hp
    rw [hstore, PhaseStore.phase?_save] at hp
    by_cases hpair : c.pair = pair
    · exact ⟨cell, c, hc, by simp [hlive], hpair⟩
    · rw [if_neg hpair] at hp
      obtain ⟨i, d, hd, hdlive, hdpair⟩ := hs.tracked pair p hp
      exact ⟨i, d, hd, by split <;> exact hdlive, hdpair⟩

/-- The holder of cells of pairs that are not stored takes them out of the table, with all other
cells that satisfy a test, and leaves their locks. -/
theorem discard {p : Cell → Bool} {places : List Nat} (hs : s.Coherent)
    (hn : s.activities[n]? = some a) (hlocks : a.locks = places)
    (hcells : ∀ i : Nat, t'.cells[i]? = s.tracker.cells[i]?.map fun c =>
      { c with live := c.live && !p c, holder := if i ∈ places then none else c.holder })
    (hstore : t'.store = s.tracker.store)
    (hmine : ∀ i ∈ places, ∃ c : Cell, s.tracker.cells[i]? = some c ∧ c.holder = some n ∧
      p c = true)
    (hwithin : ∀ (i : Nat) (c : Cell), s.tracker.cells[i]? = some c → c.live = true → p c = true →
      i ∈ places)
    (hunstored : ∀ (i : Nat) (c : Cell), s.tracker.cells[i]? = some c → p c = true →
      s.tracker.store.phase? c.pair = none) (outcome : Outcome) :
    Coherent ⟨t', s.activities.set n (.finished outcome)⟩ := by
  have hkept : ∀ (i : Nat) (c : Cell), s.tracker.cells[i]? = some c → c.live = true →
      s.tracker.store.phase? c.pair ≠ none → (c.live && !p c) = true := by
    intro i c hc hlive hstored
    have hp : p c ≠ true := fun hp => hstored (hunstored i c hc hp)
    simp [hlive, hp]
  have hheld : ∀ (i : Nat) (c : Cell), s.tracker.cells[i]? = some c → c.holder = some n →
      i ∈ places := fun i c hc hholder => by
    rw [← hlocks]
    exact hs.mem_locks hn hc hholder
  refine hs.of_cells hn hcells ?_ (fun pair => Or.inl (by rw [hstore])) ?_ trivial ?_ ?_ ?_
  · intro i c hc
    refine ⟨rfl, by simp +contextual, ?_⟩
    by_cases hi : i ∈ places
    · obtain ⟨d, hd, hholder, -⟩ := hmine i hi
      obtain rfl := Option.some.inj (hc.symm.trans hd)
      exact Or.inr ⟨Cell.openTo_of_mine hholder, Cell.openTo_of_free (if_pos hi) n⟩
    · -- A cell at another place either stays or is dead before.
      have hlive : (c.live && !p c) = c.live := by
        cases hlive : c.live with
        | false => rfl
        | true =>
          have hp : p c ≠ true := fun hp => hi (hwithin i c hc hlive hp)
          simp [hp]
      exact Or.inl (by simp [hlive, hi])
  · intro b _ r _
    constructor
    · intro q hq
      exact ⟨q, by rw [hstore, hq], .refl⟩
    · intro i c c' hc hc' hpair hlive hstored
      rw [hcells, hc] at hc'
      obtain rfl := Option.some.inj hc'
      exact hkept i c hc hlive (by rw [hpair]; exact hstored)
  · intro i c hc hholder
    by_cases hi : i ∈ places
    · simp [hi] at hholder
    · rw [if_neg hi] at hholder
      exact absurd (hheld i c hc hholder) hi
  · intro i c hc hlive hopen _
    obtain ⟨hlive, hp⟩ : c.live = true ∧ p c = false := by simpa using hlive
    have hi : i ∉ places := by
      intro hi
      obtain ⟨d, hd, -, hpd⟩ := hmine i hi
      obtain rfl := Option.some.inj (hc.symm.trans hd)
      rw [hp] at hpd
      cases hpd
    rw [hstore]
    refine hs.stored_of_openTo hn hc hlive ?_ fun hholder => absurd (hheld i c hc hholder) hi
    simpa [Cell.OpenTo, hi] using hopen
  · intro pair q hq
    rw [hstore] at hq
    obtain ⟨i, c, hc, hlive, hpair⟩ := hs.tracked pair q hq
    refine ⟨i, c, hc, hkept i c hc hlive ?_, hpair⟩
    rw [hpair, hq]
    exact Option.some_ne_none q

/-- The records of a ring are deleted by the holder of all its live cells. -/
theorem delete (hs : s.Coherent) {ring : RingVersion} {locked : List Nat}
    (hn : s.activities[n]? = some (.deleting ring locked))
    (hpending : ∀ b ∈ s.activities, ∀ r ∈ b.pending, r.pair.ring ≠ ring) :
    Coherent ⟨{ s.tracker with store := s.tracker.store.eraseRing ring },
      s.activities.set n (.clearing ring locked)⟩ := by
  obtain ⟨hholds, hwithin⟩ := hs.grounded n _ hn
  have hmine : ∀ (i : Nat) (c : Cell), s.tracker.cells[i]? = some c → c.live = true →
      c.pair.ring = ring → c.holder = some n := by
    intro i c hc hlive hring
    obtain ⟨d, hd, hholder, -⟩ := hholds i (hwithin i c hc hlive hring)
    obtain rfl := Option.some.inj (hc.symm.trans hd)
    exact hholder
  refine hs.of_cells (f := fun _ c => c) hn (fun i => by simp)
    (fun i c _ => ⟨rfl, id, Or.inl rfl⟩) ?_ ?_ ⟨hholds, hwithin, ?_⟩ ?_ ?_ ?_
  · intro pair
    rw [PhaseStore.phase?_eraseRing]
    by_cases hring : pair.ring = ring
    · cases hp : s.tracker.store.phase? pair with
      | none => exact Or.inl (if_pos hring)
      | some p =>
        obtain ⟨i, c, hc, hlive, rfl⟩ := hs.tracked pair p hp
        exact Or.inr ⟨i, c, hc, hlive, rfl, hmine i c hc hlive hring⟩
    · exact Or.inl (if_neg hring)
  · intro b hb r hr
    refine ⟨fun p hp => ⟨p, ?_, .refl⟩, fun i c c' hc hc' _ hlive _ => ?_⟩
    · rw [PhaseStore.phase?_eraseRing, if_neg (hpending b hb r hr), hp]
    · obtain rfl := Option.some.inj (hc.symm.trans hc')
      exact hlive
  · intro pair hring
    rw [PhaseStore.phase?_eraseRing, if_pos hring]
  · exact fun i c hc hholder => hs.mem_locks hn hc hholder
  · intro i c hc hlive hopen hunlocked
    have hring : c.pair.ring ≠ ring := fun hring =>
      absurd (hunlocked (hmine i c hc hlive hring)) Bool.noConfusion
    rw [PhaseStore.phase?_eraseRing, if_neg hring]
    exact hs.stored_of_openTo hn hc hlive hopen fun _ => rfl
  · intro pair p hp
    rw [PhaseStore.phase?_eraseRing] at hp
    split at hp
    · cases hp
    · exact hs.tracked pair p hp

/-- A pair that could not be saved is taken out. -/
theorem withdraw (hs : s.Coherent) {pair : Participation} {cell : Nat} {reason : String}
    (hn : s.activities[n]? = some (.withdrawing pair cell reason)) :
    Coherent ⟨(s.tracker.drop fun c => c.pair = pair).unlock cell,
      s.activities.set n (.fail (.storage reason))⟩ := by
  obtain ⟨hcell, hnone⟩ := hs.grounded n _ hn
  refine hs.discard (p := fun c => c.pair = pair) hn rfl (fun i => ?_) ?_ ?_ ?_ ?_ _
  · rw [Tracker.unlock, Tracker.cells_update, Tracker.cells_drop, Option.map_map]
    refine Option.map_congr fun d _ => ?_
    by_cases hi : i = cell <;> by_cases hd : d.pair = pair <;> simp [Activity.locks, hi, hd]
  · rfl
  · intro i hi
    obtain rfl := List.mem_singleton.1 hi
    exact ⟨_, hcell, rfl, decide_eq_true rfl⟩
  · intro i c hc hlive hp
    exact List.mem_singleton.2 (hs.single i cell c _ hc hcell hlive rfl (of_decide_eq_true hp))
  · intro i c hc hp
    rw [of_decide_eq_true hp, hnone]

/-- The cells of a ring whose records have been deleted are taken out. -/
theorem clear (hs : s.Coherent) {ring : RingVersion} {locked : List Nat}
    (hn : s.activities[n]? = some (.clearing ring locked)) :
    Coherent ⟨(s.tracker.drop fun c => c.pair.ring = ring).unlockAll locked,
      s.activities.set n (.finished .forgotten)⟩ := by
  obtain ⟨hholds, hwithin, hnone⟩ := hs.grounded n _ hn
  refine hs.discard (p := fun c => c.pair.ring = ring) hn rfl (fun i => ?_) ?_ ?_ ?_ ?_ _
  · rw [Tracker.cells_unlockAll, Tracker.cells_drop, Option.map_map]
    refine Option.map_congr fun d _ => ?_
    by_cases hi : i ∈ locked <;> by_cases hd : d.pair.ring = ring <;>
      simp [Activity.locks, hi, hd]
  · exact Tracker.store_unlockAll ..
  · intro i hi
    obtain ⟨c, hc, hholder, hring⟩ := hholds i hi
    exact ⟨c, hc, hholder, decide_eq_true hring⟩
  · intro i c hc hlive hp
    exact hwithin i c hc hlive (of_decide_eq_true hp)
  · intro i c hc hp
    exact hnone _ (of_decide_eq_true hp)

/-- A call that recovers finds no cell whose phase its record would lead further. -/
theorem adopts_eq_false (hs : s.Coherent) {count cell : Nat} {record : PhaseRecord}
    {rest : List PhaseRecord} (hn : s.activities[n]? = some (.adopting count record rest cell))
    {held : Phase} (free : s.tracker.peek? cell = some held) :
    held.adopts record.phase = false := by
  obtain ⟨houtran, c, hc, hpair, hlive⟩ := hs.grounded n _ hn
  obtain ⟨d, hd, hfree, rfl⟩ := Tracker.peek?_eq_some.1 free
  obtain rfl := Option.some.inj (hc.symm.trans hd)
  obtain ⟨p, hp, hreach⟩ := houtran record (List.mem_cons_self ..)
  have hstored := hs.stored_of_free hc hlive hfree
  rw [hpair, hp] at hstored
  obtain rfl := Option.some.inj hstored
  exact Phase.adopts_eq_false_of_reaches hreach

/-! ### Every step -/

/-- A call that has read a phase is over or goes on to ask. -/
theorem answered (hs : s.Coherent) (hn : s.activities[n]? = some a) (hlocks : a.locks = [])
    (hstored : a.unstored = false) (question : Question) (pair : Participation)
    (seen : Option Phase) :
    Coherent ⟨s.tracker, s.activities.set n (question.answer pair seen)⟩ := by
  cases question with
  | phase => exact hs.look hn trivial hlocks.symm hstored.symm
  | lagging ring required rest found =>
    cases rest <;> exact hs.look hn trivial hlocks.symm hstored.symm

/-- Every step that does not disturb the forgetting of a ring keeps a session coherent. -/
theorem of_moves (hs : s.Coherent) (hn : s.activities[n]? = some a) {reply : Reply}
    (honest : s.tracker.store.MayAnswer a.request? reply)
    (hmoves : a.Moves n s.tracker reply t' next)
    (hcalm : s.Undisturbed ⟨t', s.activities.set n next⟩) :
    Coherent ⟨t', s.activities.set n next⟩ := by
  have hground := hs.grounded n a hn
  cases hmoves with
  | @make pair _ missing =>
    refine hs.make hn missing fun b hb ring hring => ?_
    exact (hcalm b hb ring hring).2 ⟨pair, .initial, some n, true⟩ (by simp [Tracker.add])
  | @saveNew pair cell =>
    obtain ⟨hcell, hnone⟩ := hground
    refine hs.save hn hcell rfl rfl rfl (fun p hp => ?_) (fun i => ?_) rfl _
    · rw [hnone] at hp
      cases hp
    · refine (Tracker.cells_update ..).trans (Option.map_congr fun d hd => ?_)
      by_cases hi : i = cell
      · subst hi
        obtain rfl := Option.some.inj (hcell.symm.trans hd)
        rfl
      · rw [if_neg hi, if_neg hi]
  | refuseNew => exact hs.look hn hground rfl rfl
  | withdraw => exact hs.withdraw hn
  | findMoved found =>
    obtain ⟨c, hc, -, hpair⟩ := Tracker.find?_eq_some found
    exact hs.look hn ⟨c, hc, hpair⟩ rfl rfl
  | @lockMoved pair target cell _ c found free =>
    obtain ⟨d, hd, hpair⟩ := hground
    refine hs.take hn rfl found free ⟨{ c with holder := some n }, ?_, ?_, rfl⟩ rfl
    · rw [Tracker.cells_update, found]
      simp
    · obtain rfl := Option.some.inj (found.symm.trans hd)
      exact hpair
  | rejectDead found dead =>
    obtain ⟨d, hd, -, hholder⟩ := hground
    exact hs.leaveOne hn rfl rfl hd hholder _
  | acceptMove found live allowed =>
    obtain ⟨d, hd, hpair, hholder⟩ := hground
    obtain rfl := Option.some.inj (found.symm.trans hd)
    exact hs.look hn ⟨_, found, hpair, hholder, live, allowed⟩ rfl rfl
  | rejectMove found live forbidden =>
    obtain ⟨d, hd, -, hholder⟩ := hground
    exact hs.leaveOne hn rfl rfl hd hholder _
  | @saveMove _ target cell =>
    obtain ⟨c, hc, rfl, hholder, hlive, hmove⟩ := hground
    refine hs.save hn hc hlive hholder rfl (fun p hp => ?_) (fun i => ?_) rfl _
    · have hstored := hs.stored_of_openTo hn hc hlive (Cell.openTo_of_mine hholder) fun _ => rfl
      obtain rfl := Option.some.inj (hstored.symm.trans hp)
      exact .single hmove
    · refine (Tracker.cells_update ..).trans ?_
      refine (congrArg _ (Tracker.cells_update ..)).trans ?_
      rw [Option.map_map]
      refine Option.map_congr fun d _ => ?_
      by_cases hi : i = cell <;> simp [hi]
  | refuseMove =>
    obtain ⟨d, hd, -, hholder, -⟩ := hground
    exact hs.leaveOne hn rfl rfl hd hholder _
  | missAsked missing => exact hs.answered hn rfl rfl ..
  | confirmLive live => exact hs.answered hn rfl rfl ..
  | confirmDead dead => exact hs.answered hn rfl rfl ..
  | gather =>
    refine hs.look hn ⟨by simp [Tracker.HoldsAll], ?_, ?_⟩ rfl rfl
    · intro i c hc hlive hring
      rw [List.append_nil]
      exact Tracker.mem_cellsOf.2 ⟨c, hc, hlive, hring⟩
    · intro i hi
      obtain ⟨c, hc, -, hring⟩ := Tracker.mem_cellsOf.1 hi
      exact ⟨c, hc, hring⟩
  | lockedAll =>
    obtain ⟨hholds, hwithin, -⟩ := hground
    exact hs.look hn ⟨hholds, hwithin⟩ rfl rfl
  | lockNext found free => exact hs.lockNext hn found free
  | delete => exact hs.delete hn (hcalm _ (List.mem_of_getElem? hn) _ rfl).1
  | refuseDelete =>
    refine hs.leave hn rfl (fun i hi => ?_) (Tracker.cells_unlockAll _ _)
      (Tracker.store_unlockAll ..) _
    obtain ⟨c, hc, hholder, -⟩ := hground.1 i hi
    exact ⟨c, hc, hholder⟩
  | clear => exact hs.clear hn
  | @load records =>
    refine hs.look hn (fun r hr => ⟨r.phase, ?_, .refl⟩) rfl rfl
    exact PhaseStore.phase?_eq_some_iff.2 ((List.Perm.mem_iff honest).1 hr)
  | mergeFound found =>
    obtain ⟨c, hc, hlive, hpair⟩ := Tracker.find?_eq_some found
    exact hs.look hn ⟨hground, c, hc, hpair, hlive⟩ rfl rfl
  | mergeMissing missing =>
    -- What is stored is tracked.
    obtain ⟨p, hp, -⟩ := hground _ (List.mem_cons_self ..)
    rw [hs.phase?_eq_none_of_find? missing] at hp
    cases hp
  | adopt free behind =>
    rw [hs.adopts_eq_false hn free] at behind
    cases behind
  | keep free ahead =>
    exact hs.look hn (fun r hr => hground.1 r (List.mem_cons_of_mem _ hr)) rfl rfl
  | join | readJoined | joinLive | joinDead | missMoved | findAsked | readAsked | refuseLoad
  | mergedAll => exact hs.look hn trivial rfl rfl

/-- A call that is made holds nothing and relies on nothing yet. -/
theorem start (hs : s.Coherent) (call : Call) : (s.start call).Coherent where
  grounded m b hb := by
    rcases getElem?_concat_eq_some hb with hb | ⟨-, rfl⟩
    · exact hs.grounded m b hb
    · cases call with
      | lagging ring participants required => cases participants <;> trivial
      | _ => trivial
  locked i c m hc hholder := by
    obtain ⟨b, hb, hmem⟩ := hs.locked i c m hc hholder
    obtain ⟨hlt, -⟩ := List.getElem?_eq_some_iff.1 hb
    exact ⟨b, (List.getElem?_append_left hlt).trans hb, hmem⟩
  single := hs.single
  stored i c hc hlive hsettled := hs.stored i c hc hlive fun m b hm hb => by
    obtain ⟨hlt, -⟩ := List.getElem?_eq_some_iff.1 hb
    exact hsettled m b hm ((List.getElem?_append_left hlt).trans hb)
  tracked := hs.tracked

end Coherent

/-! ### At rest -/

theorem coherent_of_inStep {t : Tracker} (ht : t.InStep) : (Session.of t).Coherent where
  grounded m b hb := by
    rw [Session.of, List.getElem?_nil] at hb
    cases hb
  locked i c m hc hholder := by
    rw [ht.free c (List.mem_of_getElem? hc)] at hholder
    cases hholder
  single := ht.single
  stored i c hc hlive _ := by
    refine (ht.same c.pair).symm.trans ?_
    exact ht.single.held?_eq_some_iff.2 ⟨i, c, hc, hlive, rfl, rfl⟩
  tracked pair p hp := by
    obtain ⟨i, c, hc, hlive, hpair, -⟩ := ht.single.held?_eq_some_iff.1 ((ht.same pair).trans hp)
    exact ⟨i, c, hc, hlive, hpair⟩

theorem Coherent.inStep (hs : s.Coherent)
    (hsettled : ∀ a ∈ s.activities, ∃ outcome, a = .finished outcome) : s.tracker.InStep := by
  have hfree : ∀ (i : Nat) (c : Cell), s.tracker.cells[i]? = some c → c.holder = none := by
    intro i c hc
    cases hholder : c.holder with
    | none => rfl
    | some m =>
      obtain ⟨b, hb, hmem⟩ := hs.locked i c m hc hholder
      obtain ⟨outcome, rfl⟩ := hsettled b (List.mem_of_getElem? hb)
      cases hmem
  have hstored : ∀ (i : Nat) (c : Cell), s.tracker.cells[i]? = some c → c.live = true →
      s.tracker.store.phase? c.pair = some c.phase := fun i c hc hlive =>
    hs.stored_of_free hc hlive (hfree i c hc)
  refine ⟨fun c hc => ?_, hs.single, fun pair => ?_⟩
  · obtain ⟨i, hi⟩ := List.mem_iff_getElem?.1 hc
    exact hfree i c hi
  · ext p
    rw [hs.single.held?_eq_some_iff]
    constructor
    · rintro ⟨i, c, hc, hlive, rfl, rfl⟩
      exact hstored i c hc hlive
    · intro hp
      obtain ⟨i, c, hc, hlive, rfl⟩ := hs.tracked pair p hp
      have heq := (hstored i c hc hlive).symm.trans hp
      exact ⟨i, c, hc, hlive, rfl, Option.some.inj heq⟩

end Session

end ReplicaRing
