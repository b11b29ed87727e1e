import ReplicaRing.Proofs.Trackers.Records

/-!
# What is awake

A tracker that is made over a store knows of none of its records. A pair is asleep as long as it is
stored and no call has taken its record over. What is awake of a session is the session without the
records of such pairs, both those in the store and those that calls have still to merge. A step of a
call is a step of what is awake (`Activity.Moves.awake`), unless it loads records, or looks up the
pair of a record that is asleep.

Beginning a pair that is asleep would overwrite its record. Whoever begins a pair that is not tracked
must not find it stored (`Activity.Aware`).
-/

namespace ReplicaRing

variable {asleep : Participation → Bool}

/-! ### What is awake -/

namespace PhaseStore

theorem eq_of_records {s s' : PhaseStore} (h : s.records = s'.records) : s = s' := by
  cases s
  cases s'
  cases h
  rfl

/-- The store without the records of the pairs that are asleep. -/
def awake (asleep : Participation → Bool) (s : PhaseStore) : PhaseStore where
  records := s.records.filter fun r => !asleep r.pair
  distinct := s.distinct_filter _

theorem phase?_awake (s : PhaseStore) (asleep : Participation → Bool) (pair : Participation) :
    (s.awake asleep).phase? pair = if asleep pair then none else s.phase? pair := by
  ext p
  rw [phase?_eq_some_iff]
  unfold awake
  cases hpair : asleep pair <;> simp [hpair, phase?_eq_some_iff]

theorem awake_save (s : PhaseStore) {record : PhaseRecord} (h : asleep record.pair = false) :
    (s.save record).awake asleep = (s.awake asleep).save record := by
  apply eq_of_records
  simp only [save, awake]
  rw [List.filter_cons_of_pos (by simp [h]), List.filter_filter, List.filter_filter]
  simp only [Bool.and_comm]

theorem awake_eraseRing (s : PhaseStore) (ring : RingVersion) :
    (s.eraseRing ring).awake asleep = (s.awake asleep).eraseRing ring := by
  apply eq_of_records
  simp only [eraseRing, awake]
  rw [List.filter_filter, List.filter_filter]
  simp only [Bool.and_comm]

end PhaseStore

namespace Tracker

def awake (asleep : Participation → Bool) (t : Tracker) : Tracker :=
  { t with store := t.store.awake asleep }

theorem awake_unlockAll (t : Tracker) (places : List Nat) :
    (t.unlockAll places).awake asleep = (t.awake asleep).unlockAll places := by
  induction places generalizing t with
  | nil => rfl
  | cons i places ih => exact ih (t.unlock i)

end Tracker

namespace Activity

/-- The activity without the records of pairs that are asleep and have still to be looked up. -/
def awake (asleep : Participation → Bool) : Activity → Activity
  | merging count records => merging count (records.filter fun r => !asleep r.pair)
  | adopting count record rest cell =>
    adopting count record (rest.filter fun r => !asleep r.pair) cell
  | a => a

@[simp]
theorem locks_awake (a : Activity) : (a.awake asleep).locks = a.locks := by
  cases a <;> rfl

@[simp]
theorem unstored_awake (a : Activity) : (a.awake asleep).unstored = a.unstored := by
  cases a <;> rfl

@[simp]
theorem forgets?_awake (a : Activity) : (a.awake asleep).forgets? = a.forgets? := by
  cases a <;> rfl

@[simp]
theorem request?_awake (a : Activity) : (a.awake asleep).request? = a.request? := by
  cases a <;> rfl

theorem pending_awake_subset (a : Activity) : (a.awake asleep).pending ⊆ a.pending := by
  cases a with
  | merging count records => exact List.filter_subset_self ..
  | adopting count record rest cell =>
    exact List.cons_subset_cons record (List.filter_subset_self ..)
  | _ => exact List.nil_subset _

theorem awake_answer (question : Question) (pair : Participation) (seen : Option Phase) :
    (question.answer pair seen).awake asleep = question.answer pair seen := by
  cases question with
  | phase => rfl
  | lagging ring required rest found => cases rest <;> rfl

theorem awake_start (call : Call) : call.start.awake asleep = call.start := by
  cases call with
  | lagging ring participants required => cases participants <;> rfl
  | _ => rfl

theorem pending_start (call : Call) : call.start.pending = [] := by
  cases call with
  | lagging ring participants required => cases participants <;> rfl
  | _ => rfl

theorem eq_loading_of_request? {a : Activity} (h : a.request? = some .load) : a = loading := by
  cases a with
  | loading => rfl
  | _ => cases h

/-- Whether a call has loaded what is stored. -/
def hasLoaded : Activity → Bool
  | merging .. | adopting .. | finished (.recovered _) => true
  | _ => false

theorem hasLoaded_start (call : Call) : call.start.hasLoaded = false := by
  cases call with
  | lagging ring participants required => cases participants <;> rfl
  | _ => rfl

def hasRecovered : Activity → Bool
  | finished (.recovered _) => true
  | _ => false

/-- The pair that is to be looked up, and tracked if it is not. -/
def begins? : Activity → Option Participation
  | beginning pair => some pair
  | _ => none

/-- Who begins a pair that is not tracked finds nothing stored for it. -/
def Aware (t : Tracker) (a : Activity) : Prop :=
  ∀ pair ∈ a.begins?, t.find? pair = none → t.store.phase? pair = none

instance (t : Tracker) (a : Activity) : Decidable (a.Aware t) :=
  inferInstanceAs (Decidable (∀ pair ∈ a.begins?, t.find? pair = none → t.store.phase? pair = none))

variable {me : Nat} {reply : Reply} {t t' : Tracker} {a next : Activity}

/-- A step is a step of what is awake, unless it saves or takes over a record of a pair that is
asleep, or loads records. -/
theorem Moves.awake (hmoves : a.Moves me t reply t' next) (hload : a ≠ loading)
    (hsaved : ∀ r, a.request? = some (.save r) → asleep r.pair = false)
    (hmerged : ∀ count record rest, a = merging count (record :: rest) →
      asleep record.pair = false) :
    (a.awake asleep).Moves me (t.awake asleep) reply (t'.awake asleep) (next.awake asleep) := by
  have hmerging : ∀ count record rest, a = merging count (record :: rest) →
      a.awake asleep = merging count (record :: rest.filter fun r => !asleep r.pair) := by
    rintro count record rest rfl
    show merging count ((record :: rest).filter _) = _
    rw [List.filter_cons_of_pos (by simp [hmerged count record rest rfl])]
  cases hmoves with
  | load | refuseLoad => exact absurd rfl hload
  | join found => exact .join found
  | make missing => exact .make missing
  | readJoined free => exact .readJoined free
  | joinLive live => exact .joinLive live
  | joinDead dead => exact .joinDead dead
  | saveNew =>
    unfold Tracker.awake
    rw [PhaseStore.awake_save _ (hsaved _ rfl)]
    exact .saveNew
  | refuseNew => exact .refuseNew
  | withdraw => exact .withdraw
  | findMoved found => exact .findMoved found
  | missMoved missing => exact .missMoved missing
  | lockMoved found free => exact .lockMoved found free
  | rejectDead found dead => exact .rejectDead found dead
  | acceptMove found live allowed => exact .acceptMove found live allowed
  | rejectMove found live forbidden => exact .rejectMove found live forbidden
  | saveMove =>
    unfold Tracker.awake
    rw [PhaseStore.awake_save _ (hsaved _ rfl)]
    exact .saveMove
  | refuseMove => exact .refuseMove
  | findAsked found => exact .findAsked found
  | missAsked missing =>
    rw [awake_answer]
    exact .missAsked missing
  | readAsked free => exact .readAsked free
  | confirmLive live =>
    rw [awake_answer]
    exact .confirmLive live
  | confirmDead dead =>
    rw [awake_answer]
    exact .confirmDead dead
  | gather => exact .gather
  | lockedAll => exact .lockedAll
  | lockNext found free => exact .lockNext found free
  | delete =>
    unfold Tracker.awake
    rw [PhaseStore.awake_eraseRing]
    exact .delete
  | refuseDelete =>
    rw [Tracker.awake_unlockAll]
    exact .refuseDelete
  | clear =>
    rw [Tracker.awake_unlockAll]
    exact .clear
  | mergedAll => exact .mergedAll
  | mergeFound found =>
    rw [hmerging _ _ _ rfl]
    exact .mergeFound found
  | mergeMissing missing =>
    rw [hmerging _ _ _ rfl]
    exact .mergeMissing missing
  | adopt free behind => exact .adopt free behind
  | keep free ahead => exact .keep free ahead

/-- A step that loads nothing leaves no new records to be merged. -/
theorem Moves.pending_subset (hmoves : a.Moves me t reply t' next) (hload : a ≠ loading) :
    next.pending ⊆ a.pending := by
  cases hmoves with
  | load => exact absurd rfl hload
  | missAsked | confirmLive | confirmDead =>
    rename_i question _
    cases question with
    | phase => exact List.nil_subset _
    | lagging ring required rest found => cases rest <;> exact List.nil_subset _
  | mergeFound => exact List.Subset.refl _
  | mergeMissing | adopt | keep => exact List.subset_cons_self ..
  | _ => exact List.nil_subset _

/-- A call that has loaded the records goes on with those that were to be merged, but for the one for
which it has found a cell or added one. -/
theorem Moves.hasLoaded (hmoves : a.Moves me t reply t' next) (hload : a ≠ loading)
    (hnext : next.hasLoaded = true) :
    a.hasLoaded = true ∧ ∀ r ∈ a.pending, r ∈ next.pending ∨
      (∃ count rest, a = merging count (r :: rest)) ∨
      ∃ count rest cell, a = adopting count r rest cell := by
  cases hmoves with
  | load => exact absurd rfl hload
  | mergedAll => exact ⟨rfl, fun r hr => absurd hr List.not_mem_nil⟩
  | mergeFound => exact ⟨rfl, fun r hr => Or.inl hr⟩
  | @mergeMissing count record rest =>
    refine ⟨rfl, fun r hr => ?_⟩
    rcases List.mem_cons.1 hr with rfl | hr
    · exact Or.inr (Or.inl ⟨count, rest, rfl⟩)
    · exact Or.inl hr
  | @adopt count record rest cell | @keep count record rest cell =>
    refine ⟨rfl, fun r hr => ?_⟩
    rcases List.mem_cons.1 hr with rfl | hr
    · exact Or.inr (Or.inr ⟨count, rest, cell, rfl⟩)
    · exact Or.inl hr
  | @missAsked _ question | @confirmLive _ _ _ question | @confirmDead _ _ _ question =>
    cases question with
    | phase => cases hnext
    | lagging ring required rest found => cases rest <;> cases hnext
  | _ => cases hnext

/-- A pair for which no cell is added stays untracked. -/
theorem Moves.find?_eq_none (hmoves : a.Moves me t reply t' next) {pair : Participation}
    (hnone : t.find? pair = none) (hbegun : a ≠ beginning pair)
    (hmerged : ∀ count record rest, a = merging count (record :: rest) → record.pair ≠ pair) :
    t'.find? pair = none := by
  rw [Tracker.find?_eq_none] at hnone ⊢
  intro i c' hc' hlive hpair
  cases hc : t.cells[i]? with
  | none =>
    rcases hmoves.new hc' hc with rfl | ⟨count, record, rest, rfl, hrecord⟩
    · exact hbegun (by rw [hpair])
    · exact hmerged count record rest rfl (hrecord.trans hpair)
  | some c =>
    obtain ⟨d, hd, hdpair, hdlive⟩ := hmoves.old hc
    obtain rfl := Option.some.inj (hc'.symm.trans hd)
    exact hnone i c hc (hdlive hlive) (hdpair.symm.trans hpair)

/-- What becomes of what is stored for a pair: it stays, unless a record of the pair is saved or its
ring deleted. -/
theorem Moves.phase?_cases (hmoves : a.Moves me t reply t' next) (pair : Participation) :
    t'.store.phase? pair = t.store.phase? pair ∨
      (∃ p, a.request? = some (.save ⟨pair, p⟩) ∧ t'.store.phase? pair = some p) ∨
      ∃ locked, a = deleting pair.ring locked ∧ reply = .done ∧ t'.store.phase? pair = none := by
  have hsave : ∀ record : PhaseRecord, a.request? = some (.save record) →
      t'.store = t.store.save record → t'.store.phase? pair = t.store.phase? pair ∨
        ∃ p, a.request? = some (.save ⟨pair, p⟩) ∧ t'.store.phase? pair = some p := by
    intro record hrequest hstore
    rw [hstore, PhaseStore.phase?_save]
    by_cases hpair : record.pair = pair
    · subst hpair
      exact Or.inr ⟨record.phase, hrequest, if_pos rfl⟩
    · exact Or.inl (if_neg hpair)
  cases hmoves with
  | saveNew | saveMove => exact (hsave _ rfl rfl).imp_right Or.inl
  | @delete ring locked =>
    have hphase := PhaseStore.phase?_eraseRing t.store ring pair
    by_cases hring : pair.ring = ring
    · subst hring
      exact Or.inr (Or.inr ⟨locked, rfl, rfl, hphase.trans (if_pos rfl)⟩)
    · exact Or.inl (hphase.trans (if_neg hring))
  | refuseDelete | clear => exact Or.inl (congrArg (·.phase? pair) (Tracker.store_unlockAll ..))
  | _ => exact Or.inl rfl

end Activity

/-- Only what is loaded depends on what is stored. -/
theorem PhaseStore.MayAnswer.of_ne_load {s : PhaseStore} {request : Option Request} {reply : Reply}
    (h : s.MayAnswer request reply) (hload : request ≠ some .load) (s' : PhaseStore) :
    s'.MayAnswer request reply := by
  cases request with
  | none => trivial
  | some request =>
    cases request with
    | load => exact absurd rfl hload
    | save | delete => cases reply <;> trivial

namespace Session

/-- A call has recovered what is stored. -/
def Recovered (s : Session) : Prop :=
  ∃ a ∈ s.activities, a.hasRecovered = true

instance (s : Session) : Decidable s.Recovered :=
  inferInstanceAs (Decidable (∃ a ∈ s.activities, a.hasRecovered = true))

def awake (asleep : Participation → Bool) (s : Session) : Session :=
  ⟨s.tracker.awake asleep, s.activities.map (Activity.awake asleep)⟩

variable {s s' : Session} {n : Nat} {a : Activity}

theorem getElem?_awake (hn : s.activities[n]? = some a) (asleep : Participation → Bool) :
    (s.awake asleep).activities[n]? = some (a.awake asleep) := by
  show (s.activities.map _)[n]? = _
  rw [List.getElem?_map, hn]
  rfl

theorem mem_awake {b : Activity} (hb : b ∈ (s.awake asleep).activities) :
    ∃ b₀ ∈ s.activities, b₀.awake asleep = b :=
  List.mem_map.1 hb

theorem awake_set (asleep : Participation → Bool) (t' : Tracker) (activities : List Activity)
    (n : Nat) (next : Activity) : awake asleep ⟨t', activities.set n next⟩ =
      ⟨t'.awake asleep, (activities.map (Activity.awake asleep)).set n (next.awake asleep)⟩ :=
  congrArg (Session.mk _) List.map_set

theorem phase?_of_awake (s : Session) {pair : Participation} (hpair : asleep pair = false) :
    (s.awake asleep).tracker.store.phase? pair = s.tracker.store.phase? pair := by
  refine (PhaseStore.phase?_awake ..).trans ?_
  rw [hpair]
  rfl

/-- What disturbs no forgetting disturbs none of those that are awake. -/
theorem Undisturbed.awake (h : s.Undisturbed s') :
    (s.awake asleep).Undisturbed (s'.awake asleep) := by
  intro b hb ring hring
  obtain ⟨b₀, hb₀, rfl⟩ := mem_awake hb
  rw [Activity.forgets?_awake] at hring
  obtain ⟨hclear, hnew⟩ := h b₀ hb₀ ring hring
  refine ⟨fun d hd r hr => ?_, hnew⟩
  obtain ⟨d₀, hd₀, rfl⟩ := mem_awake hd
  exact hclear d₀ hd₀ r (d₀.pending_awake_subset hr)

end Session

end ReplicaRing
