import ReplicaRing.Proofs.Trackers.Cells

/-!
# What a step of a call can do

`Activity.Moves` lists the steps of a call: what it does next, what becomes of the tracker, and what
was found or answered that let it take this step. Every step is one of them
(`Activity.moves_of_step?`), so what all steps have in common is shown by cases on this relation.

Only the holder of a lock writes to a cell; the other steps look, lock a free cell, or add a cell.
-/

namespace ReplicaRing

namespace Activity

/-- The steps of the call with the number `me`: from a tracker and an activity, at a reply of the
store, to the tracker and the activity after it. -/
inductive Moves (me : Nat) (t : Tracker) : Activity → Reply → Tracker → Activity → Prop
  | join {pair cell reply} (found : t.find? pair = some cell) :
    Moves me t (beginning pair) reply t (joining pair cell)
  | make {pair reply} (missing : t.find? pair = none) :
    Moves me t (beginning pair) reply (t.add ⟨pair, .initial, some me, true⟩)
      (savingNew pair t.cells.length)
  | readJoined {pair cell seen reply} (free : t.peek? cell = some seen) :
    Moves me t (joining pair cell) reply t (joined pair cell seen)
  | joinLive {pair cell seen reply} (live : t.isLive cell = true) :
    Moves me t (joined pair cell seen) reply t (finished (.begun seen))
  | joinDead {pair cell seen reply} (dead : t.isLive cell = false) :
    Moves me t (joined pair cell seen) reply t (beginning pair)
  | saveNew {pair cell} :
    Moves me t (savingNew pair cell) .done
      { t.unlock cell with store := t.store.save ⟨pair, .initial⟩ } (finished (.begun .initial))
  | refuseNew {pair cell reason} :
    Moves me t (savingNew pair cell) (.refused reason) t (withdrawing pair cell reason)
  | withdraw {pair cell reason reply} :
    Moves me t (withdrawing pair cell reason) reply ((t.drop fun c => c.pair = pair).unlock cell)
      (fail (.storage reason))
  | findMoved {pair target cell reply} (found : t.find? pair = some cell) :
    Moves me t (moving pair target) reply t (lockingMove pair target cell)
  | missMoved {pair target reply} (missing : t.find? pair = none) :
    Moves me t (moving pair target) reply t (untracked pair)
  | lockMoved {pair target cell reply} {c : Cell} (found : t.cells[cell]? = some c)
    (free : c.holder = none) :
    Moves me t (lockingMove pair target cell) reply
      (t.update cell fun c => { c with holder := some me }) (checkingMove pair target cell)
  | rejectDead {pair target cell reply} {c : Cell} (found : t.cells[cell]? = some c)
    (dead : c.live = false) :
    Moves me t (checkingMove pair target cell) reply (t.unlock cell) (untracked pair)
  | acceptMove {pair target cell reply} {c : Cell} (found : t.cells[cell]? = some c)
    (live : c.live = true) (allowed : c.phase.canMove target = true) :
    Moves me t (checkingMove pair target cell) reply t (savingMove pair target cell)
  | rejectMove {pair target cell reply} {c : Cell} (found : t.cells[cell]? = some c)
    (live : c.live = true) (forbidden : c.phase.canMove target = false) :
    Moves me t (checkingMove pair target cell) reply (t.unlock cell)
      (fail (.invalidTransition c.phase target))
  | saveMove {pair target cell} :
    Moves me t (savingMove pair target cell) .done
      { (t.setPhase cell target).unlock cell with store := t.store.save ⟨pair, target⟩ }
      (finished .moved)
  | refuseMove {pair target cell reason} :
    Moves me t (savingMove pair target cell) (.refused reason) (t.unlock cell)
      (fail (.storage reason))
  | findAsked {pair question cell reply} (found : t.find? pair = some cell) :
    Moves me t (asking pair question) reply t (reading pair cell question)
  | missAsked {pair question reply} (missing : t.find? pair = none) :
    Moves me t (asking pair question) reply t (question.answer pair none)
  | readAsked {pair cell question seen reply} (free : t.peek? cell = some seen) :
    Moves me t (reading pair cell question) reply t (confirming pair cell seen question)
  | confirmLive {pair cell seen question reply} (live : t.isLive cell = true) :
    Moves me t (confirming pair cell seen question) reply t (question.answer pair (some seen))
  | confirmDead {pair cell seen question reply} (dead : t.isLive cell = false) :
    Moves me t (confirming pair cell seen question) reply t (question.answer pair none)
  | gather {ring reply} :
    Moves me t (gathering ring) reply t (lockingAll ring (t.cellsOf ring) [])
  | lockedAll {ring locked reply} :
    Moves me t (lockingAll ring [] locked) reply t (deleting ring locked)
  | lockNext {ring cell waiting locked reply} {c : Cell} (found : t.cells[cell]? = some c)
    (free : c.holder = none) :
    Moves me t (lockingAll ring (cell :: waiting) locked) reply
      (t.update cell fun c => { c with holder := some me })
      (lockingAll ring waiting (cell :: locked))
  | delete {ring locked} :
    Moves me t (deleting ring locked) .done { t with store := t.store.eraseRing ring }
      (clearing ring locked)
  | refuseDelete {ring locked reason} :
    Moves me t (deleting ring locked) (.refused reason) (t.unlockAll locked) (fail (.storage reason))
  | clear {ring locked reply} :
    Moves me t (clearing ring locked) reply ((t.drop fun c => c.pair.ring = ring).unlockAll locked)
      (finished .forgotten)
  | load {records} :
    Moves me t loading (.loaded records) t (merging records.length records)
  | refuseLoad {reason} :
    Moves me t loading (.refused reason) t (fail (.storage reason))
  | mergedAll {count reply} :
    Moves me t (merging count []) reply t (finished (.recovered count))
  | mergeFound {count record rest cell reply} (found : t.find? record.pair = some cell) :
    Moves me t (merging count (record :: rest)) reply t (adopting count record rest cell)
  | mergeMissing {count record rest reply} (missing : t.find? record.pair = none) :
    Moves me t (merging count (record :: rest)) reply
      (t.add ⟨record.pair, record.phase, none, true⟩) (merging count rest)
  | adopt {count record rest cell held reply} (free : t.peek? cell = some held)
    (behind : held.adopts record.phase = true) :
    Moves me t (adopting count record rest cell) reply (t.setPhase cell record.phase)
      (merging count rest)
  | keep {count record rest cell held reply} (free : t.peek? cell = some held)
    (ahead : held.adopts record.phase = false) :
    Moves me t (adopting count record rest cell) reply t (merging count rest)

/-- Every step is one of the moves. -/
theorem moves_of_step? {me : Nat} {reply : Reply} {t t' : Tracker} {a next : Activity}
    (h : a.step? me reply t = some (t', next)) : a.Moves me t reply t' next := by
  cases a with
  | beginning pair =>
    rw [step?] at h
    split at h <;> rename_i hfind <;> cases h
    · exact .join hfind
    · exact .make hfind
  | joining pair cell =>
    obtain ⟨seen, hseen, heq⟩ := Option.map_eq_some_iff.1 h
    cases heq
    exact .readJoined hseen
  | joined pair cell seen =>
    cases hlive : t.isLive cell <;> rw [step?, hlive] at h <;> cases h
    · exact .joinDead hlive
    · exact .joinLive hlive
  | savingNew pair cell =>
    cases reply <;> cases h
    · exact .saveNew
    · exact .refuseNew
  | withdrawing pair cell reason =>
    cases h
    exact .withdraw
  | moving pair target =>
    cases hfind : t.find? pair <;> rw [step?, hfind] at h <;> cases h
    · exact .missMoved hfind
    · exact .findMoved hfind
  | lockingMove pair target cell =>
    obtain ⟨t₁, hlock, heq⟩ := Option.map_eq_some_iff.1 h
    cases heq
    obtain ⟨⟨c, hc, hfree⟩, rfl⟩ := Tracker.lock?_eq_some hlock
    exact .lockMoved hc hfree
  | checkingMove pair target cell =>
    obtain ⟨c, hc, heq⟩ := Option.map_eq_some_iff.1 h
    split at heq
    · rename_i hdead
      cases heq
      exact .rejectDead hc (by simpa using hdead)
    · rename_i hlive
      split at heq <;> rename_i hmove <;> cases heq
      · exact .acceptMove hc (by simpa using hlive) hmove
      · exact .rejectMove hc (by simpa using hlive) (by simpa using hmove)
  | savingMove pair target cell =>
    cases reply <;> cases h
    · exact .saveMove
    · exact .refuseMove
  | asking pair question =>
    cases hfind : t.find? pair <;> rw [step?, hfind] at h <;> cases h
    · exact .missAsked hfind
    · exact .findAsked hfind
  | reading pair cell question =>
    obtain ⟨seen, hseen, heq⟩ := Option.map_eq_some_iff.1 h
    cases heq
    exact .readAsked hseen
  | confirming pair cell seen question =>
    cases hlive : t.isLive cell <;> rw [step?, hlive] at h <;> cases h
    · exact .confirmDead hlive
    · exact .confirmLive hlive
  | gathering ring =>
    cases h
    exact .gather
  | lockingAll ring waiting locked =>
    cases waiting with
    | nil =>
      cases h
      exact .lockedAll
    | cons cell waiting =>
      obtain ⟨t₁, hlock, heq⟩ := Option.map_eq_some_iff.1 h
      cases heq
      obtain ⟨⟨c, hc, hfree⟩, rfl⟩ := Tracker.lock?_eq_some hlock
      exact .lockNext hc hfree
  | deleting ring locked =>
    cases reply <;> cases h
    · exact .delete
    · exact .refuseDelete
  | clearing ring locked =>
    cases h
    exact .clear
  | loading =>
    cases reply <;> cases h
    · exact .load
    · exact .refuseLoad
  | merging count records =>
    cases records with
    | nil =>
      cases h
      exact .mergedAll
    | cons record rest =>
      rw [step?] at h
      split at h <;> rename_i hfind <;> cases h
      · exact .mergeFound hfind
      · exact .mergeMissing hfind
  | adopting count record rest cell =>
    obtain ⟨held, hheld, heq⟩ := Option.map_eq_some_iff.1 h
    cases hadopts : held.adopts record.phase <;> rw [hadopts] at heq <;> cases heq
    · exact .keep hheld hadopts
    · exact .adopt hheld hadopts
  | finished outcome => cases h

/-- Every move can be taken. -/
theorem Moves.step?_eq {me : Nat} {reply : Reply} {t t' : Tracker} {a next : Activity}
    (h : a.Moves me t reply t' next) : a.step? me reply t = some (t', next) := by
  cases h with
  | readJoined free | readAsked free | adopt free | keep free => simp [step?, *]
  | lockMoved found free | lockNext found free =>
    have hpeek := Tracker.peek?_eq_some.2 ⟨_, found, free, rfl⟩
    simp [step?, Tracker.lock?, hpeek]
  | _ => simp [step?, fail, *]

/-! ### What becomes of the cells -/

variable {me : Nat} {reply : Reply} {t t' : Tracker} {a next : Activity}

/-- A step changes cells in their places, or adds one to begin a pair or to take over a record. -/
theorem Moves.cells (hmoves : a.Moves me t reply t' next) :
    (∃ f : Nat → Cell → Cell, (∀ i : Nat, t'.cells[i]? = t.cells[i]?.map (f i)) ∧
      ∀ i c, (f i c).pair = c.pair ∧ ((f i c).live = true → c.live = true)) ∨
    ∃ cell : Cell, t'.cells = (t.add cell).cells ∧ t.find? cell.pair = none ∧
      (a = beginning cell.pair ∨
        ∃ count record rest, a = merging count (record :: rest) ∧ record.pair = cell.pair) := by
  cases hmoves with
  | make missing => exact Or.inr ⟨_, rfl, missing, Or.inl rfl⟩
  | mergeMissing missing => exact Or.inr ⟨_, rfl, missing, Or.inr ⟨_, _, _, rfl, rfl⟩⟩
  | saveNew | lockMoved | rejectDead | rejectMove | refuseMove | lockNext | adopt =>
    refine Or.inl ⟨_, fun i => Tracker.cells_update .., fun i c => ?_⟩
    split <;> exact ⟨rfl, id⟩
  | withdraw =>
    refine Or.inl ⟨_, fun i => ((Tracker.cells_update ..).trans
      (congrArg _ (Tracker.cells_drop ..))).trans (Option.map_map ..), fun i c => ?_⟩
    simp only [Function.comp_apply]
    split <;> split <;> simp
  | saveMove =>
    refine Or.inl ⟨_, fun i => ((Tracker.cells_update ..).trans
      (congrArg _ (Tracker.cells_update ..))).trans (Option.map_map ..), fun i c => ?_⟩
    simp only [Function.comp_apply]
    split <;> exact ⟨rfl, id⟩
  | refuseDelete =>
    refine Or.inl ⟨_, fun i => Tracker.cells_unlockAll .., fun i c => ?_⟩
    split <;> exact ⟨rfl, id⟩
  | clear =>
    refine Or.inl ⟨_, fun i => ((Tracker.cells_unlockAll ..).trans
      (congrArg _ (Tracker.cells_drop ..))).trans (Option.map_map ..), fun i c => ?_⟩
    simp only [Function.comp_apply]
    split <;> split <;> simp
  | _ => exact Or.inl ⟨fun _ c => c, fun i => by simp, fun _ _ => ⟨rfl, id⟩⟩

/-- A cell keeps its pair, and a dead one stays dead. -/
theorem Moves.old (hmoves : a.Moves me t reply t' next) {i : Nat} {c : Cell}
    (hc : t.cells[i]? = some c) :
    ∃ c' : Cell, t'.cells[i]? = some c' ∧ c'.pair = c.pair ∧ (c'.live = true → c.live = true) := by
  rcases hmoves.cells with ⟨f, hcells, hf⟩ | ⟨cell, hcells, -⟩
  · exact ⟨f i c, by rw [hcells, hc]; rfl, hf i c⟩
  · have hlt := (List.getElem?_eq_some_iff.1 hc).1
    exact ⟨c, by rw [hcells, Tracker.cells_add, if_neg (Nat.ne_of_lt hlt), hc], rfl, id⟩

/-- Cells are added to begin a pair or to take over a record. -/
theorem Moves.new (hmoves : a.Moves me t reply t' next) {i : Nat} {c : Cell}
    (hc : t'.cells[i]? = some c) (hnone : t.cells[i]? = none) :
    a = beginning c.pair ∨
      ∃ count record rest, a = merging count (record :: rest) ∧ record.pair = c.pair := by
  rcases hmoves.cells with ⟨f, hcells, -⟩ | ⟨cell, hcells, -, hmade⟩
  · rw [hcells, hnone] at hc
    cases hc
  · rw [hcells, Tracker.cells_add] at hc
    split at hc
    · obtain rfl := Option.some.inj hc
      exact hmade
    · rw [hnone] at hc
      cases hc

/-- No step makes a second live cell for a pair. -/
theorem Moves.single (hmoves : a.Moves me t reply t' next) (h : t.Single) : t'.Single := by
  rcases hmoves.cells with ⟨f, hcells, hf⟩ | ⟨cell, hcells, hmissing, -⟩
  · intro i j c' d' hc' hd' hlive hlive' hpair
    rw [hcells, Option.map_eq_some_iff] at hc' hd'
    obtain ⟨c, hc, rfl⟩ := hc'
    obtain ⟨d, hd, rfl⟩ := hd'
    have hc'' := hf i c
    have hd'' := hf j d
    refine h i j c d hc hd (hc''.2 hlive) (hd''.2 hlive') ?_
    rw [← hc''.1, ← hd''.1, hpair]
  · have hadd := h.add hmissing
    unfold Tracker.Single at hadd ⊢
    rw [hcells]
    exact hadd

end Activity

end ReplicaRing
