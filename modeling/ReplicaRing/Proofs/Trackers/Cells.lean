import ReplicaRing.Convergence.Tracker.Session
import Mathlib.Data.List.Nodup

/-!
# Cells and stored phases

What each operation on a tracker does to the cell at a place, and each operation on the store to the
phase of a pair. A pair is looked up at its live cell (`Tracker.find?_eq_some`,
`Tracker.find?_eq_none`); where no two live cells have one pair, its phase is the one in that cell
(`Tracker.Single.held?_eq_some_iff`).
-/

namespace ReplicaRing

/-! ### The store -/

namespace PhaseStore

theorem phase?_eq_some_iff {s : PhaseStore} {pair : Participation} {p : Phase} :
    s.phase? pair = some p ↔ ⟨pair, p⟩ ∈ s.records := by
  unfold phase?
  rw [Option.map_eq_some_iff]
  constructor
  · rintro ⟨r, hr, rfl⟩
    have hpair : r.pair = pair := by simpa using List.find?_some hr
    rw [← hpair]
    exact List.mem_of_find?_eq_some hr
  · intro hmem
    cases hfind : s.records.find? fun r => r.pair = pair with
    | none =>
      have := List.find?_eq_none.1 hfind _ hmem
      simp at this
    | some r =>
      have hpair : r.pair = pair := by simpa using List.find?_some hfind
      have heq := List.inj_on_of_nodup_map s.distinct (List.mem_of_find?_eq_some hfind) hmem hpair
      exact ⟨r, rfl, congrArg PhaseRecord.phase heq⟩

theorem phase?_save (s : PhaseStore) (record : PhaseRecord) (pair : Participation) :
    (s.save record).phase? pair =
      if record.pair = pair then some record.phase else s.phase? pair := by
  ext p
  rw [phase?_eq_some_iff]
  unfold save
  by_cases hpair : record.pair = pair
  · simp only [hpair, if_true, List.mem_cons, List.mem_filter]
    subst hpair
    cases record
    simp [eq_comm]
  · rw [if_neg hpair, phase?_eq_some_iff]
    have hne : (⟨pair, p⟩ : PhaseRecord) ≠ record := fun h => hpair (by rw [← h])
    simp [hne, Ne.symm hpair]

theorem phase?_eraseRing (s : PhaseStore) (ring : RingVersion) (pair : Participation) :
    (s.eraseRing ring).phase? pair = if pair.ring = ring then none else s.phase? pair := by
  ext p
  rw [phase?_eq_some_iff]
  unfold eraseRing
  by_cases hring : pair.ring = ring
  · simp [hring]
  · rw [if_neg hring, phase?_eq_some_iff]
    simp [hring]

end PhaseStore

namespace Tracker

variable {t : Tracker}

/-! ### The cell at a place -/

theorem cells_update (t : Tracker) (i : Nat) (f : Cell → Cell) (j : Nat) :
    (t.update i f).cells[j]? = t.cells[j]?.map fun c => if j = i then f c else c := by
  unfold update
  by_cases h : j = i
  · simp [h]
  · simp [h, Ne.symm h]

theorem cells_drop (t : Tracker) (p : Cell → Bool) (j : Nat) :
    (t.drop p).cells[j]? =
      t.cells[j]?.map fun c => if p c then { c with live := false } else c := by
  unfold drop
  exact List.getElem?_map

theorem cells_add (t : Tracker) (cell : Cell) (j : Nat) :
    (t.add cell).cells[j]? = if j = t.cells.length then some cell else t.cells[j]? := by
  unfold add
  by_cases h : j = t.cells.length
  · simp [h]
  · rw [if_neg h]
    by_cases hlt : j < t.cells.length
    · exact List.getElem?_append_left hlt
    · rw [List.getElem?_eq_none (by simp; omega), List.getElem?_eq_none (by omega)]

theorem cells_unlockAll (t : Tracker) (places : List Nat) (j : Nat) :
    (t.unlockAll places).cells[j]? =
      t.cells[j]?.map fun c => if j ∈ places then { c with holder := none } else c := by
  induction places generalizing t with
  | nil => simp [unlockAll]
  | cons i places ih =>
    have hfold : t.unlockAll (i :: places) = (t.unlock i).unlockAll places := rfl
    rw [hfold, ih]
    unfold unlock
    rw [cells_update, Option.map_map]
    congr 1
    funext c
    by_cases hj : j = i <;> simp [hj]

theorem store_unlockAll (t : Tracker) (places : List Nat) :
    (t.unlockAll places).store = t.store := by
  induction places generalizing t with
  | nil => rfl
  | cons i places ih => exact ih (t.unlock i)

/-! ### Looking up -/

theorem find?_eq_some {pair : Participation} {i : Nat} (h : t.find? pair = some i) :
    ∃ c, t.cells[i]? = some c ∧ c.live = true ∧ c.pair = pair := by
  obtain ⟨hi, hc, -⟩ := List.findIdx?_eq_some_iff_getElem.1 h
  simp only [Bool.and_eq_true, decide_eq_true_eq] at hc
  exact ⟨t.cells[i], List.getElem?_eq_getElem hi, hc⟩

theorem find?_eq_none {pair : Participation} :
    t.find? pair = none ↔ ∀ (i : Nat) (c : Cell), t.cells[i]? = some c → c.live = true → c.pair ≠ pair := by
  unfold find?
  rw [List.findIdx?_eq_none_iff]
  constructor
  · intro h i c hc hlive hpair
    have := h c (List.mem_of_getElem? hc)
    simp [hlive, hpair] at this
  · intro h c hc
    obtain ⟨i, hi⟩ := List.mem_iff_getElem?.1 hc
    have := h i c hi
    simpa using this

/-- A cell is found for its own pair only. -/
theorem find?_add_eq_none {pair : Participation} {cell : Cell} (h : t.find? pair = none)
    (hne : cell.pair ≠ pair) : (t.add cell).find? pair = none := by
  rw [find?_eq_none] at h ⊢
  intro i c hc hlive
  rw [cells_add] at hc
  split at hc
  · obtain rfl := Option.some.inj hc
    exact hne
  · exact h i c hc hlive

theorem peek?_eq_some {i : Nat} {p : Phase} :
    t.peek? i = some p ↔ ∃ c, t.cells[i]? = some c ∧ c.holder = none ∧ c.phase = p := by
  unfold peek?
  cases h : t.cells[i]? with
  | none => simp
  | some c =>
    rw [Option.map_eq_some_iff]
    simp [Option.filter_eq_some_iff, and_assoc]

theorem lock?_eq_some {i call : Nat} {t' : Tracker} (h : t.lock? i call = some t') :
    (∃ c, t.cells[i]? = some c ∧ c.holder = none) ∧
      t' = t.update i fun c => { c with holder := some call } := by
  obtain ⟨p, hp, rfl⟩ := Option.map_eq_some_iff.1 h
  obtain ⟨c, hc, hfree, -⟩ := peek?_eq_some.1 hp
  exact ⟨⟨c, hc, hfree⟩, rfl⟩

theorem mem_cellsOf {ring : RingVersion} {i : Nat} :
    i ∈ t.cellsOf ring ↔ ∃ c, t.cells[i]? = some c ∧ c.live = true ∧ c.pair.ring = ring := by
  unfold cellsOf
  simp [List.mem_zipIdx_iff_getElem?]

/-! ### One live cell for each pair -/

/-- No two live cells have one pair. -/
def Single (t : Tracker) : Prop :=
  ∀ (i j : Nat) (c d : Cell), t.cells[i]? = some c → t.cells[j]? = some d → c.live = true → d.live = true →
    c.pair = d.pair → i = j

theorem single_of_nodup (h : (t.cells.map Cell.pair).Nodup) : t.Single := by
  intro i j c d hc hd _ _ hpair
  have hlt : i < (t.cells.map Cell.pair).length := by
    simpa using (List.getElem?_eq_some_iff.1 hc).1
  refine (List.getElem?_inj hlt h).1 ?_
  rw [List.getElem?_map, List.getElem?_map, hc, hd]
  exact congrArg some hpair

/-- A cell may be added for a pair that is not tracked. -/
theorem Single.add (h : t.Single) {cell : Cell} (hmissing : t.find? cell.pair = none) :
    (t.add cell).Single := by
  have hfresh := find?_eq_none.1 hmissing
  intro i j c d hc hd hclive hdlive hpair
  rw [cells_add] at hc hd
  split at hc <;> split at hd
  · rename_i hi hj
    rw [hi, hj]
  · obtain rfl := Option.some.inj hc
    exact absurd hpair.symm (hfresh j d hd hdlive)
  · obtain rfl := Option.some.inj hd
    exact absurd hpair (hfresh i c hc hclive)
  · exact h i j c d hc hd hclive hdlive hpair

/-- The phase that is kept for a pair is the one in its live cell. -/
theorem Single.held?_eq_some_iff (h : t.Single) {pair : Participation} {p : Phase} :
    t.held? pair = some p ↔
      ∃ (i : Nat) (c : Cell), t.cells[i]? = some c ∧ c.live = true ∧ c.pair = pair ∧ c.phase = p := by
  unfold held?
  rw [Option.map_eq_some_iff]
  constructor
  · rintro ⟨c, hc, hphase⟩
    obtain ⟨i, hi⟩ := List.mem_iff_getElem?.1 (List.mem_of_find?_eq_some hc)
    have hlive := List.find?_some hc
    simp only [Bool.and_eq_true, decide_eq_true_eq] at hlive
    exact ⟨i, c, hi, hlive.1, hlive.2, hphase⟩
  · rintro ⟨i, c, hc, hlive, hpair, hphase⟩
    cases hfind : t.cells.find? fun c => c.live && c.pair = pair with
    | none =>
      have := List.find?_eq_none.1 hfind c (List.mem_of_getElem? hc)
      simp [hlive, hpair] at this
    | some d =>
      obtain ⟨j, hj⟩ := List.mem_iff_getElem?.1 (List.mem_of_find?_eq_some hfind)
      have hd := List.find?_some hfind
      simp only [Bool.and_eq_true, decide_eq_true_eq] at hd
      obtain rfl := h i j c d hc hj hlive hd.1 (hpair.trans hd.2.symm)
      obtain rfl := Option.some.inj (hc.symm.trans hj)
      exact ⟨c, rfl, hphase⟩

end Tracker

end ReplicaRing
