import ReplicaRing.Proofs.Trackers.Alone

/-!
# Recovery

A tracker that takes no other call takes over what is stored, one record after the other. All the
steps of that come to `Tracker.mergeRecords`, in which each record is merged as a whole. What
becomes of a pair depends only on what is held and what is stored for it
(`Tracker.held?_mergeRecords`): the stored phase is taken over if the pair is not held yet or if
moves lead to it from the one that is held (`Phase.adopts_iff_moves`). So the order of the records
does not matter, and a second recovery finds nothing that it would take over
(`Tracker.recover_onward`).

Memory may be ahead of the store or behind it, and need not know of the same pairs: nothing is asked
of the tracker but that no call is in flight.
-/

namespace ReplicaRing

open Session (AtRest)

variable {t : Tracker} {faults : Request → Option String} {pair : Participation} {s : Phase}
  {record : PhaseRecord} {records : List PhaseRecord}

/-! ### Looking up what is held -/

namespace Tracker

theorem held?_eq_none (h : t.find? pair = none) : t.held? pair = none := by
  unfold held?
  rw [Option.map_eq_none_iff, List.find?_eq_none]
  intro c hc
  obtain ⟨i, hi⟩ := List.mem_iff_getElem?.1 hc
  have hpair := find?_eq_none.1 h i c hi
  simpa using hpair

theorem held?_add {cell : Cell} (hlive : cell.live = true) (hmissing : t.find? cell.pair = none)
    (pair : Participation) :
    (t.add cell).held? pair = if cell.pair = pair then some cell.phase else t.held? pair := by
  unfold held? add
  rw [List.find?_append]
  by_cases hpair : cell.pair = pair
  · have hnone := held?_eq_none hmissing
    unfold held? at hnone
    rw [Option.map_eq_none_iff, hpair] at hnone
    simp [hnone, hlive, hpair]
  · have hother : [cell].find? (fun c => c.live && c.pair = pair) = none := by simp [hpair]
    rw [hother, Option.or_none, if_neg hpair]

/-- The cell at a place after a phase was written. -/
theorem cells_setPhase_eq_some {cell i : Nat} {c' : Cell} :
    (t.setPhase cell s).cells[i]? = some c' ↔ ∃ c : Cell, t.cells[i]? = some c ∧
      c' = { c with phase := if i = cell then s else c.phase } := by
  unfold setPhase
  rw [cells_update, Option.map_eq_some_iff]
  refine exists_congr fun c => and_congr_right fun _ => ?_
  split <;> exact eq_comm

theorem Single.setPhase (h : t.Single) (cell : Nat) (s : Phase) : (t.setPhase cell s).Single := by
  intro i j c' d' hc' hd' hlive hlive' hpair
  obtain ⟨c, hc, rfl⟩ := cells_setPhase_eq_some.1 hc'
  obtain ⟨d, hd, rfl⟩ := cells_setPhase_eq_some.1 hd'
  exact h i j c d hc hd hlive hlive' hpair

theorem Single.held?_setPhase (h : t.Single) {cell : Nat} {own : Participation}
    (hfind : t.find? own = some cell) (s : Phase) (pair : Participation) :
    (t.setPhase cell s).held? pair = if own = pair then some s else t.held? pair := by
  obtain ⟨d, hd, hlive, hown⟩ := find?_eq_some hfind
  split
  · rename_i heq
    refine (h.setPhase cell s).held?_eq_some_iff.2
      ⟨cell, _, cells_setPhase_eq_some.2 ⟨d, hd, rfl⟩, hlive, hown.trans heq, ?_⟩
    exact if_pos rfl
  · rename_i hne
    -- The cells of other pairs stand elsewhere.
    have helse : ∀ {i : Nat} {c : Cell}, t.cells[i]? = some c → c.pair = pair → i ≠ cell := by
      rintro i c hc hpair rfl
      obtain rfl := Option.some.inj (hc.symm.trans hd)
      exact hne (hown.symm.trans hpair)
    ext p
    rw [(h.setPhase cell s).held?_eq_some_iff, h.held?_eq_some_iff]
    constructor
    · rintro ⟨i, c', hc', hlive, hpair, rfl⟩
      obtain ⟨c, hc, rfl⟩ := cells_setPhase_eq_some.1 hc'
      exact ⟨i, c, hc, hlive, hpair, (if_neg (helse hc hpair)).symm⟩
    · rintro ⟨i, c, hc, hlive, hpair, rfl⟩
      exact ⟨i, _, cells_setPhase_eq_some.2 ⟨c, hc, rfl⟩, hlive, hpair, if_neg (helse hc hpair)⟩

end Tracker

/-- A pair that is tracked is held in the cell where it is looked up. -/
theorem Session.AtRest.exists_held (ht : AtRest t) {cell : Nat} (h : t.find? pair = some cell) :
    ∃ p, t.held? pair = some p ∧ t.peek? cell = some p := by
  obtain ⟨c, hc, hlive, hpair⟩ := Tracker.find?_eq_some h
  exact ⟨c.phase, ht.single.held?_eq_some_iff.2 ⟨cell, c, hc, hlive, hpair, rfl⟩,
    Tracker.peek?_eq_some.2 ⟨c, hc, ht.free c (List.mem_of_getElem? hc), rfl⟩⟩

/-! ### Merging records -/

/-- The phase of a pair after what is stored for it was merged into what is held. -/
def Phase.merged? : (held stored : Option Phase) → Option Phase
  | held, none => held
  | none, some s => some s
  | some p, some s => if p.adopts s then some s else some p

namespace Tracker

/-- The tracker after a record was merged: its pair is added, or the cell of the pair adopts the
phase. -/
def mergeRecord (t : Tracker) (record : PhaseRecord) : Tracker :=
  match t.find? record.pair with
  | none => t.add ⟨record.pair, record.phase, none, true⟩
  | some cell =>
    if (t.held? record.pair).any (·.adopts record.phase) then t.setPhase cell record.phase else t

def mergeRecords (t : Tracker) (records : List PhaseRecord) : Tracker :=
  records.foldl mergeRecord t

theorem store_mergeRecord (t : Tracker) (record : PhaseRecord) :
    (t.mergeRecord record).store = t.store := by
  unfold mergeRecord
  split
  · rfl
  · split <;> rfl

theorem atRest_mergeRecord (ht : AtRest t) (record : PhaseRecord) :
    AtRest (t.mergeRecord record) := by
  unfold mergeRecord
  split
  · rename_i hmissing
    exact ⟨by simpa [add, or_imp, forall_and] using ht.free, ht.single.add hmissing⟩
  · split
    · exact ⟨free_setPhase ht.free _ _, ht.single.setPhase _ _⟩
    · exact ht

theorem held?_mergeRecord (ht : AtRest t) (record : PhaseRecord) (pair : Participation) :
    (t.mergeRecord record).held? pair =
      if record.pair = pair then Phase.merged? (t.held? pair) (some record.phase)
      else t.held? pair := by
  unfold mergeRecord
  cases hfind : t.find? record.pair with
  | none =>
    have hnone := held?_eq_none hfind
    simp only
    rw [held?_add rfl hfind]
    split
    · rename_i hpair
      rw [← hpair, hnone]
      rfl
    · rfl
  | some cell =>
    obtain ⟨p, hheld, -⟩ := ht.exists_held hfind
    simp only [hheld, Option.any_some]
    cases hadopts : p.adopts record.phase with
    | true =>
      rw [if_pos rfl, ht.single.held?_setPhase hfind]
      split
      · rename_i hpair
        rw [← hpair, hheld, Phase.merged?, if_pos hadopts]
      · rfl
    | false =>
      rw [if_neg (by simp)]
      split
      · rename_i hpair
        rw [← hpair, hheld, Phase.merged?, if_neg (by simp [hadopts])]
      · rfl

theorem store_mergeRecords (t : Tracker) (records : List PhaseRecord) :
    (t.mergeRecords records).store = t.store := by
  induction records generalizing t with
  | nil => rfl
  | cons record rest ih => exact (ih (t.mergeRecord record)).trans (t.store_mergeRecord record)

theorem atRest_mergeRecords (ht : AtRest t) (records : List PhaseRecord) :
    AtRest (t.mergeRecords records) := by
  induction records generalizing t with
  | nil => exact ht
  | cons record rest ih => exact ih (atRest_mergeRecord ht record)

/-- What becomes of a pair depends on what is held and what is stored for it. -/
theorem held?_mergeRecords (ht : AtRest t) (hnodup : (records.map PhaseRecord.pair).Nodup)
    (pair : Participation) :
    (t.mergeRecords records).held? pair = Phase.merged? (t.held? pair)
      ((records.find? fun r => r.pair = pair).map PhaseRecord.phase) := by
  induction records generalizing t with
  | nil => rfl
  | cons record rest ih =>
    rw [List.map_cons, List.nodup_cons] at hnodup
    have hrest := ih (atRest_mergeRecord ht record) hnodup.2
    rw [mergeRecords, List.foldl_cons]
    rw [mergeRecords] at hrest
    rw [hrest, held?_mergeRecord ht]
    by_cases hpair : record.pair = pair
    · -- No later record is about the same pair.
      have hnone : rest.find? (fun r => r.pair = pair) = none := by
        rw [List.find?_eq_none]
        intro r hr hrpair
        exact hnodup.1 (List.mem_map.2 ⟨r, hr, (of_decide_eq_true hrpair).trans hpair.symm⟩)
      rw [if_pos hpair, hnone, List.find?_cons_of_pos (by simpa using hpair)]
      rfl
    · rw [if_neg hpair, List.find?_cons_of_neg (by simpa using hpair)]

/-- Records that would not be taken over leave the tracker as it is. -/
theorem mergeRecords_eq_self
    (h : ∀ r ∈ records, ∃ p, t.held? r.pair = some p ∧ p.adopts r.phase = false) :
    t.mergeRecords records = t := by
  induction records with
  | nil => rfl
  | cons record rest ih =>
    obtain ⟨hrecord, hrest⟩ := List.forall_mem_cons.1 h
    obtain ⟨p, hheld, hkept⟩ := hrecord
    have hsame : t.mergeRecord record = t := by
      unfold mergeRecord
      cases hfind : t.find? record.pair with
      | none =>
        rw [held?_eq_none hfind] at hheld
        cases hheld
      | some cell => simp [hheld, hkept]
    rw [mergeRecords, List.foldl_cons, hsame]
    exact ih hrest

/-! ### Recovering alone -/

/-- The steps that merge records come to merging each of them as a whole. -/
theorem ends_merging (faults : Request → Option String) (ht : AtRest t) (count : Nat)
    (records : List PhaseRecord) : (Activity.merging count records).Ends faults t
      (2 * records.length + 1) (t.mergeRecords records) (.recovered count) := by
  induction records generalizing t with
  | nil => exact .step rfl .mergedAll .finished
  | cons record rest ih =>
    have hrest := ih (atRest_mergeRecord ht record)
    rw [List.length_cons]
    rw [mergeRecords, List.foldl_cons]
    rw [mergeRecords] at hrest
    cases hfind : t.find? record.pair with
    | none =>
      have hmerge : t.mergeRecord record = t.add ⟨record.pair, record.phase, none, true⟩ := by
        simp [mergeRecord, hfind]
      rw [hmerge] at hrest ⊢
      exact .mono (.step rfl (.mergeMissing hfind) hrest) (by omega)
    | some cell =>
      obtain ⟨p, hheld, hpeek⟩ := ht.exists_held hfind
      refine .step rfl (.mergeFound hfind) ?_
      cases hadopts : p.adopts record.phase with
      | true =>
        have hmerge : t.mergeRecord record = t.setPhase cell record.phase := by
          simp [mergeRecord, hfind, hheld, hadopts]
        rw [hmerge] at hrest ⊢
        exact .step rfl (.adopt hpeek hadopts) hrest
      | false =>
        have hmerge : t.mergeRecord record = t := by simp [mergeRecord, hfind, hheld, hadopts]
        rw [hmerge] at hrest ⊢
        exact .step rfl (.keep hpeek hadopts) hrest

theorem perform_recover (ht : AtRest t) (hload : faults .load = none) :
    t.perform faults .recover =
      some (t.mergeRecords t.store.records, .recovered t.store.records.length) := by
  have hends : (Call.start .recover).Ends faults t (2 * t.store.records.length + 2)
      (t.mergeRecords t.store.records) (.recovered t.store.records.length) :=
    .step (reply_of_load hload) .load (ends_merging faults ht ..)
  refine hends.perform_eq ?_
  simp only [stepLimit]
  omega

theorem perform_recover_of_refused (t : Tracker) {reason : String}
    (hload : faults .load = some reason) :
    t.perform faults .recover = some (t, .failed (.storage reason)) := by
  have hends : (Call.start .recover).Ends faults t 1 t (.failed (.storage reason)) :=
    .step (reply_of_refused rfl hload) .refuseLoad .finished
  refine hends.perform_eq ?_
  simp only [stepLimit]
  omega

/-! ### What recovery comes to -/

/-- What a recovery makes of a tracker: the store stays as it is, and the phase of each pair stays
or goes further on to the one that is stored. -/
structure Recovered (t t' : Tracker) : Prop where
  store : t'.store = t.store
  atRest : AtRest t'
  /-- A pair that was not held has its stored phase. -/
  added : ∀ pair s, t.held? pair = none → t.store.phase? pair = some s → t'.held? pair = some s
  /-- A pair has its stored phase if one or more moves lead there. -/
  moved : ∀ pair p s, t.held? pair = some p → t.store.phase? pair = some s →
    Relation.TransGen (fun a b : Phase => a.canMove b = true) p s → t'.held? pair = some s
  /-- Otherwise it stays where it was. -/
  kept : ∀ pair p s, t.held? pair = some p → t.store.phase? pair = some s →
    ¬ Relation.TransGen (fun a b : Phase => a.canMove b = true) p s → t'.held? pair = some p
  untouched : ∀ pair, t.store.phase? pair = none → t'.held? pair = t.held? pair
  /-- No pair leaves a final phase. -/
  final : ∀ pair p, t.held? pair = some p → p.isFinal = true → t'.held? pair = some p

theorem held?_mergeRecords_store (ht : AtRest t) (pair : Participation) :
    (t.mergeRecords t.store.records).held? pair =
      Phase.merged? (t.held? pair) (t.store.phase? pair) :=
  held?_mergeRecords ht t.store.distinct pair

theorem recovered_mergeRecords (ht : AtRest t) :
    t.Recovered (t.mergeRecords t.store.records) where
  store := t.store_mergeRecords _
  atRest := atRest_mergeRecords ht _
  added pair s hheld hstored := by
    rw [held?_mergeRecords_store ht, hheld, hstored]
    rfl
  moved pair p s hheld hstored hmoves := by
    rw [held?_mergeRecords_store ht, hheld, hstored]
    exact if_pos (Phase.adopts_iff_moves.2 hmoves)
  kept pair p s hheld hstored hnone := by
    rw [held?_mergeRecords_store ht, hheld, hstored]
    exact if_neg fun hadopts => hnone (Phase.adopts_iff_moves.1 hadopts)
  untouched pair hstored := by
    rw [held?_mergeRecords_store ht, hstored]
    cases t.held? pair <;> rfl
  final pair p hheld hfinal := by
    rw [held?_mergeRecords_store ht, hheld]
    cases t.store.phase? pair with
    | none => rfl
    | some s =>
      refine if_neg fun hadopts => ?_
      rw [Phase.isFinal_eq_false_of_moves (Phase.adopts_iff_moves.1 hadopts)] at hfinal
      cases hfinal

/-- What was merged once is not taken over again, in whatever order it is listed. -/
theorem mergeRecords_again (ht : AtRest t) (hsub : ∀ r ∈ records, r ∈ t.store.records) :
    (t.mergeRecords t.store.records).mergeRecords records = t.mergeRecords t.store.records := by
  refine mergeRecords_eq_self fun r hr => ?_
  have hstored : t.store.phase? r.pair = some r.phase :=
    PhaseStore.phase?_eq_some_iff.2 (hsub r hr)
  rw [held?_mergeRecords_store ht, hstored]
  cases t.held? r.pair with
  | none => exact ⟨r.phase, rfl, by simp [Phase.adopts]⟩
  | some p =>
    cases hadopts : p.adopts r.phase with
    | true => exact ⟨r.phase, if_pos hadopts, by simp [Phase.adopts]⟩
    | false => exact ⟨p, if_neg (by simp [hadopts]), hadopts⟩

/-- The store may list its records in any order. -/
theorem held?_mergeRecords_of_perm (ht : AtRest t) {listed : PhaseStore}
    (hperm : listed.records.Perm t.store.records) (pair : Participation) :
    (t.mergeRecords listed.records).held? pair = (t.mergeRecords t.store.records).held? pair := by
  have hsame : listed.phase? pair = t.store.phase? pair := Option.ext fun p => by
    rw [PhaseStore.phase?_eq_some_iff, PhaseStore.phase?_eq_some_iff, hperm.mem_iff]
  rw [held?_mergeRecords_store ht, ← hsame]
  exact held?_mergeRecords ht listed.distinct pair

theorem mergeRecords_onStore (t : Tracker) (store : PhaseStore) (records : List PhaseRecord) :
    ({ t with store } : Tracker).mergeRecords records = { t.mergeRecords records with store } := by
  induction records generalizing t with
  | nil => rfl
  | cons record rest ih =>
    have hrecord : ({ t with store } : Tracker).mergeRecord record =
        { t.mergeRecord record with store } := by
      have hfind : ({ t with store } : Tracker).find? record.pair = t.find? record.pair := rfl
      have hheld : ({ t with store } : Tracker).held? record.pair = t.held? record.pair := rfl
      unfold mergeRecord
      rw [hfind, hheld]
      split
      · rfl
      · split <;> rfl
    rw [mergeRecords, List.foldl_cons, hrecord]
    exact ih (t.mergeRecord record)

/-- A tracker recovers while no other call is in flight. The call fails if the records cannot be
loaded, and changes nothing then. Otherwise it comes to its end and counts the records; each pair
goes further on to its stored phase, or stays where it is. The order in which the records are listed
does not show, and a second recovery changes nothing. -/
theorem recover_onward (ht : AtRest t) (faults : Request → Option String) :
    (∀ reason, faults .load = some reason →
      t.perform faults .recover = some (t, .failed (.storage reason))) ∧
    (faults .load = none → ∃ t',
      t.perform faults .recover = some (t', .recovered t.store.records.length) ∧ t.Recovered t' ∧
      ∀ listed : PhaseStore, listed.records.Perm t.store.records →
        (∃ t'', ({ t with store := listed } : Tracker).perform faults .recover =
            some (t'', .recovered t.store.records.length) ∧
          ∀ pair, t''.held? pair = t'.held? pair) ∧
        ({ t' with store := listed } : Tracker).perform faults .recover =
          some ({ t' with store := listed }, .recovered t.store.records.length)) := by
  refine ⟨fun reason h => perform_recover_of_refused t h, fun hload => ?_⟩
  refine ⟨_, perform_recover ht hload, recovered_mergeRecords ht, fun listed hperm => ⟨?_, ?_⟩⟩
  · have hrest : AtRest { t with store := listed } := ⟨ht.free, ht.single⟩
    refine ⟨{ t.mergeRecords listed.records with store := listed }, ?_,
      held?_mergeRecords_of_perm ht hperm⟩
    rw [perform_recover hrest hload, mergeRecords_onStore, hperm.length_eq]
  · have hmerged := atRest_mergeRecords ht t.store.records
    have hrest : AtRest { t.mergeRecords t.store.records with store := listed } :=
      ⟨hmerged.free, hmerged.single⟩
    rw [perform_recover hrest hload, mergeRecords_onStore,
      mergeRecords_again ht fun r hr => hperm.mem_iff.1 hr, hperm.length_eq]

/-! Of three participants the first is stored two moves further on, the second is stored behind what
is held and has given up since, and the third is not stored; a fourth is stored only. -/

def partlyStored : Tracker where
  cells := [⟨⟨⟨7, 3, 1⟩, "s1"⟩, .ready1, none, true⟩, ⟨⟨⟨7, 3, 1⟩, "s2"⟩, .abandoned, none, true⟩,
    ⟨⟨⟨7, 3, 1⟩, "s3"⟩, .initial, none, true⟩]
  store := ⟨[⟨⟨⟨7, 3, 1⟩, "s4"⟩, .closed⟩, ⟨⟨⟨7, 3, 1⟩, "s2"⟩, .ready2⟩,
    ⟨⟨⟨7, 3, 1⟩, "s1"⟩, .localComplete1⟩], by decide⟩

theorem recover_onward_partlyStored :
    AtRest partlyStored ∧ ∃ t', partlyStored.perform (fun _ => none) .recover =
        some (t', .recovered 3) ∧
      t'.held? ⟨⟨7, 3, 1⟩, "s1"⟩ = some .localComplete1 ∧
      t'.held? ⟨⟨7, 3, 1⟩, "s2"⟩ = some .abandoned ∧
      t'.held? ⟨⟨7, 3, 1⟩, "s3"⟩ = some .initial ∧
      t'.held? ⟨⟨7, 3, 1⟩, "s4"⟩ = some .closed ∧
      t'.perform (fun _ => none) .recover = some (t', .recovered 3) := by
  have hrest : AtRest partlyStored := ⟨by decide, single_of_nodup (by decide)⟩
  obtain ⟨t', hperform, hrecovered, hlisted⟩ := (recover_onward hrest fun _ => none).2 rfl
  refine ⟨hrest, t', hperform, ?_, ?_, ?_, ?_, ?_⟩
  · exact hrecovered.moved ⟨⟨7, 3, 1⟩, "s1"⟩ .ready1 .localComplete1 rfl rfl
      (Phase.adopts_iff_moves.1 (by decide))
  · exact hrecovered.final ⟨⟨7, 3, 1⟩, "s2"⟩ .abandoned rfl rfl
  · exact hrecovered.untouched ⟨⟨7, 3, 1⟩, "s3"⟩ rfl
  · exact hrecovered.added ⟨⟨7, 3, 1⟩, "s4"⟩ .closed rfl rfl
  · have hsame : ({ t' with store := partlyStored.store } : Tracker) = t' := by
      rw [← hrecovered.store]
    have hagain := (hlisted partlyStored.store (.refl _)).2
    rw [hsame] at hagain
    exact hagain

end Tracker

end ReplicaRing
