import ReplicaRing.Proofs.Layers.FreeRuns
import ReplicaRing.Proofs.Layers.Release

/-!
# Filling up to quota

Filling hands offsets that nobody owns to members below their quota, and never an offset that the
member owns in another layer. `Layer.Filled` says what that means for a stretch of one layer; it
holds piece by piece (`Filled.append`) and so for a whole layer (`fillSpans_spec`). From layer to
layer, what a member holds and what it still needs stay the same in sum, and no member comes to own
an offset twice (`fillLayers_spec`). When all members reach their quotas, each holds the larger of
its quota and what it held (`fillFrom?_eq_some`); when one does not, every offset that is left over
in some layer is one that it owns in another (`fillFrom?_eq_none`).
-/

namespace ReplicaRing.Layer

open PlacementRequest (ownerAt?)

/-- An offset keeps its owner, or goes to one of `gains` if it had none. -/
inductive Gain (gains : Nat → Prop) : Option Nat → Option Nat → Prop
  | keep (owner : Option Nat) : Gain gains owner owner
  | gain (m : Nat) : gains m → Gain gains none (some m)

theorem Gain.mono {gains gains' : Nat → Prop} (h : ∀ m, gains m → gains' m) {a b : Option Nat}
    (hab : Gain gains a b) : Gain gains' a b := by
  cases hab with
  | keep => exact .keep _
  | gain m hm => exact .gain m (h m hm)

theorem Gain.trans {gains : Nat → Prop} {a b c : Option Nat} (hab : Gain gains a b)
    (hbc : Gain gains b c) : Gain gains a c := by
  cases hab with
  | keep => exact hbc
  | gain m hm =>
    cases hbc with
    | keep => exact .gain m hm

/-- A gain leaves the offsets of those alone that gain nothing. -/
theorem Gain.eq_some_iff {gains : Nat → Prop} {a b : Option Nat} (hab : Gain gains a b) {m : Nat}
    (hm : ¬ gains m) : b = some m ↔ a = some m := by
  cases hab with
  | keep => exact Iff.rfl
  | gain m' hm' =>
    constructor
    · intro h
      obtain rfl : m' = m := Option.some.inj h
      exact absurd hm' hm
    · intro h; cases h

/-- Nobody loses by a gain. -/
theorem Gain.eq_some {gains : Nat → Prop} {a b : Option Nat} (hab : Gain gains a b) {m : Nat}
    (h : a = some m) : b = some m := by
  cases hab with
  | keep => exact h
  | gain => cases h

/-! ### Within one layer -/

/-- A stretch of a layer, from `start` to `stop`, in which the member `m` was to get up to `need`
offsets that nobody owns and that are not `taken`, and is left with the need `left`. -/
structure Filled (m start stop need : Nat) (taken : Nat → Prop) (before after : Layer)
    (left : Nat) : Prop where
  spans : SpansFrom start stop after
  owner : ∀ o, ownerAt? after o = ownerAt? before o ∨
    (0 < need ∧ ownerAt? before o = none ∧ ¬ taken o ∧ ownerAt? after o = some m)
  left_le : left ≤ need
  holding_add : holding [after] m + left = holding [before] m + need
  /-- A need is left only when nothing more can be had. -/
  exhausted : 0 < left → ∀ o, start ≤ o → o < stop → ownerAt? after o = none → taken o

/-- What is filled in two stretches is filled in both together. -/
theorem Filled.append {m start middle stop need left left' : Nat} {taken : Nat → Prop}
    {x x' y y' : Layer} (hxs : SpansFrom start middle x) (hys : SpansFrom middle stop y)
    (hx : Filled m start middle need taken x x' left)
    (hy : Filled m middle stop left taken y y' left') :
    Filled m start stop need taken (x ++ y) (x' ++ y') left' where
  spans := hx.spans.append hy.spans
  owner := by
    intro o
    rw [hxs.ownerAt?_append hys, hx.spans.ownerAt?_append hy.spans]
    split
    · exact hx.owner o
    · rcases hy.owner o with h | ⟨hneed, h⟩
      · exact Or.inl h
      · exact Or.inr ⟨Nat.lt_of_lt_of_le hneed hx.left_le, h⟩
  left_le := Nat.le_trans hy.left_le hx.left_le
  holding_add := by
    have hxh := hx.holding_add
    have hyh := hy.holding_add
    rw [holding_singleton_append, holding_singleton_append]
    omega
  exhausted := by
    intro hleft o hstart hstop hnone
    rw [hx.spans.ownerAt?_append hy.spans] at hnone
    split at hnone
    · rename_i ho
      exact hx.exhausted (Nat.lt_of_lt_of_le hleft hy.left_le) o hstart ho hnone
    · rename_i ho
      exact hy.exhausted hleft o (by omega) hstop hnone

theorem spansFrom_unowned {start stop : Nat} (h : start ≤ stop) :
    SpansFrom start stop (unowned start stop) := by
  unfold unowned
  split
  · refine ⟨rfl, by dsimp only; omega, ?_⟩
    show start + (stop - start) = stop
    omega
  · show start = stop
    omega

theorem ownerAt?_unowned (start stop o : Nat) : ownerAt? (unowned start stop) o = none := by
  unfold unowned
  split
  · rw [PlacementRequest.ownerAt?_cons]
    split
    · rfl
    · split <;> rfl
  · rfl

theorem holding_unowned (start stop m : Nat) : holding [unowned start stop] m = 0 := by
  unfold unowned
  split <;> simp [holding]

/-- Filling depends on the spans of a stretch only through their owners, and on what is taken only
within the stretch. -/
theorem Filled.congr {m start stop need left : Nat} {taken taken' : Nat → Prop}
    {before before' after : Layer} (h : Filled m start stop need taken before after left)
    (howner : ∀ o, ownerAt? before' o = ownerAt? before o)
    (hholding : holding [before'] m = holding [before] m) (htaken : ∀ o, taken' o → taken o)
    (hback : 0 < left → ∀ o, start ≤ o → o < stop → taken o → taken' o) :
    Filled m start stop need taken' before' after left where
  spans := h.spans
  owner := by
    intro o
    rw [howner]
    rcases h.owner o with hsame | ⟨hneed, hnone, hfree, hm⟩
    · exact Or.inl hsame
    · exact Or.inr ⟨hneed, hnone, fun ho => hfree (htaken o ho), hm⟩
  left_le := h.left_le
  holding_add := by
    rw [hholding]
    exact h.holding_add
  exhausted := by
    intro hleft o hstart hstop hnone
    exact hback hleft o hstart hstop (h.exhausted hleft o hstart hstop hnone)

/-- A stretch that nobody owns is filled part by part. -/
theorem Filled.append_unowned {m start middle stop need between left : Nat} {taken : Nat → Prop}
    {x y : Layer} (hstart : start ≤ middle) (hstop : middle ≤ stop)
    (hx : Filled m start middle need taken (unowned start middle) x between)
    (hy : Filled m middle stop between taken (unowned middle stop) y left) :
    Filled m start stop need taken (unowned start stop) (x ++ y) left := by
  have hfront := spansFrom_unowned hstart
  have hback := spansFrom_unowned hstop
  refine (hx.append hfront hback hy).congr (fun o => ?_) ?_ (fun _ ho => ho) fun _ _ _ _ ho => ho
  · rw [hfront.ownerAt?_append hback]
    simp only [ownerAt?_unowned, ite_self]
  · simp only [holding_singleton_append, holding_unowned]

/-- A stretch is left alone in which nothing may be handed out. -/
theorem filled_unowned {m start stop need : Nat} {taken : Nat → Prop} (h : start ≤ stop)
    (htaken : 0 < need → ∀ o, start ≤ o → o < stop → taken o) :
    Filled m start stop need taken (unowned start stop) (unowned start stop) need :=
  ⟨spansFrom_unowned h, fun _ => Or.inl rfl, Nat.le_refl _, rfl,
    fun hneed o hstart hstop _ => htaken hneed o hstart hstop⟩

/-- A stretch of which nothing is taken goes to the member as a whole, if it needs as much. -/
theorem filled_run {m start length need : Nat} {taken : Nat → Prop} (hpos : 0 < length)
    (hle : length ≤ need) (hfree : ∀ o, start ≤ o → o < start + length → ¬ taken o) :
    Filled m start (start + length) need taken (unowned start (start + length))
      [⟨start, length, some m⟩] (need - length) := by
  have hspans : SpansFrom start (start + length) [⟨start, length, some m⟩] := ⟨rfl, hpos, rfl⟩
  have howner : ∀ o, start ≤ o → o < start + length →
      ownerAt? [⟨start, length, some m⟩] o = some m := fun o hstart hstop =>
    hspans.ownerAt?_of_mem (List.mem_singleton_self _) hstart hstop
  refine ⟨hspans, fun o => ?_, Nat.sub_le _ _, ?_, fun _ o hstart hstop hnone => ?_⟩
  · rw [ownerAt?_unowned]
    by_cases ho : start ≤ o ∧ o < start + length
    · exact Or.inr ⟨by omega, rfl, hfree o ho.1 ho.2, howner o ho.1 ho.2⟩
    · exact Or.inl (hspans.ownerAt?_eq_none (by omega))
  · rw [holding_singleton_cons, if_pos rfl, holding_unowned]
    simp only [holding, List.flatten_singleton, List.filter_nil, List.map_nil, sumOf_nil]
    omega
  · rw [howner o hstart hstop] at hnone
    cases hnone

/-- The free runs of a stretch that nobody owns are handed out from the front. -/
theorem fillRuns_spec (m need : Nat) {start stop : Nat} {runs : List (Nat × Nat)} (hle : start ≤ stop)
    (hapart : Apart runs) (hbounds : ∀ r ∈ runs, start ≤ r.1 ∧ r.2 ≤ stop) :
    Filled m start stop need (fun o => ¬ Covers runs o) (unowned start stop)
      (fillRuns m start stop need runs).1 (fillRuns m start stop need runs).2 := by
  induction runs generalizing start need with
  | nil => exact filled_unowned hle fun _ o _ _ => not_covers_nil o
  | cons run rest ih =>
    obtain ⟨a, b⟩ := run
    obtain ⟨hab, hlater, hrest⟩ := apart_cons.1 hapart
    obtain ⟨hstart, hstop⟩ := hbounds (a, b) (List.mem_cons_self ..)
    dsimp only at hab hlater hstart hstop
    rw [fillRuns]
    split
    · rename_i hneed
      exact filled_unowned hle fun hpos => absurd hneed (Nat.ne_of_gt hpos)
    · rename_i hneed
      dsimp only
      generalize htaken : min (b - a) need = taken
      have ih := @ih (need - taken) (a + taken) (by omega) hrest fun r hr => by
        have := hlater r hr
        have := (hbounds r (List.mem_cons_of_mem _ hr)).2
        omega
      generalize fillRuns m (a + taken) stop (need - taken) rest = out at ih ⊢
      obtain ⟨pieces, left⟩ := out
      dsimp only at ih ⊢
      -- Offsets that later runs cover lie behind what is handed out of this one.
      have hbehind : ∀ o, Covers rest o → b < o := by
        rintro o ⟨r, hr, hro, -⟩
        have := hlater r hr
        omega
      have hbefore : Filled m start a need (fun o => ¬ Covers ((a, b) :: rest) o) (unowned start a)
          (unowned start a) need := by
        refine filled_unowned hstart fun _ o _ ho hcovers => ?_
        rcases covers_cons.1 hcovers with h | h
        · dsimp only at h
          omega
        · have := hbehind o h
          omega
      have hrun : Filled m a (a + taken) need (fun o => ¬ Covers ((a, b) :: rest) o)
          (unowned a (a + taken)) [⟨a, taken, some m⟩] (need - taken) := by
        refine filled_run (by omega) (by omega) fun o ha hb hfree => hfree (covers_cons.2 (Or.inl ?_))
        dsimp only
        omega
      have hafter : Filled m (a + taken) stop (need - taken) (fun o => ¬ Covers ((a, b) :: rest) o)
          (unowned (a + taken) stop) pieces left := by
        refine ih.congr (fun _ => rfl) rfl (fun o ho hrest => ho (covers_cons.2 (Or.inr hrest))) ?_
        intro hleft o ha _ ho hcovers
        have := ih.left_le
        rcases covers_cons.1 hcovers with h | h
        · dsimp only at h
          omega
        · exact ho h
      exact hbefore.append_unowned hstart (by omega)
        (hrun.append_unowned (by omega) (by omega) hafter)

theorem ownerAt?_singleton_of_none {s : Span} (h : s.owner = none) (o : Nat) :
    ownerAt? [s] o = none := by
  rw [PlacementRequest.ownerAt?_cons, h]
  split
  · rfl
  · split <;> rfl

/-- A span that nobody owns is filled with what is free of it. -/
theorem fillRuns_freeRuns_spec (m need : Nat) {s : Span} {taken : List (Nat × Nat)}
    (hnone : s.owner = none) (hapart : Apart taken) :
    Filled m s.start s.stop need (Covers taken) [s]
      (fillRuns m s.start s.stop need (freeRuns s.start s.stop taken)).1
      (fillRuns m s.start s.stop need (freeRuns s.start s.stop taken)).2 := by
  have hle : s.start ≤ s.stop := Nat.le_add_right _ _
  have hruns := fillRuns_spec m need hle (apart_freeRuns s.start s.stop hapart) fun r hr =>
      ⟨(bounds_of_mem_freeRuns hr).1, (bounds_of_mem_freeRuns hr).2.2⟩
  refine hruns.congr (fun o => ?_) ?_ (fun o htaken hcov => ?_) fun _ o hstart hstop hfree => ?_
  · rw [ownerAt?_singleton_of_none hnone, ownerAt?_unowned]
  · rw [holding_unowned, holding_singleton_cons, if_neg (by rw [hnone]; simp)]
    simp [holding]
  · exact ((covers_freeRuns hapart.spaced o).1 hcov).2.2 htaken
  · by_contra htaken
    exact hfree ((covers_freeRuns hapart.spaced o).2 ⟨hstart, hstop, htaken⟩)

/-- A whole layer is filled span by span. -/
theorem fillSpans_spec (m need : Nat) {start stop : Nat} {layer : Layer} {taken : List (Nat × Nat)}
    (h : SpansFrom start stop layer) (hapart : Apart taken) :
    Filled m start stop need (Covers taken) layer (fillSpans m taken need layer).1
      (fillSpans m taken need layer).2 := by
  induction layer generalizing start need with
  | nil =>
    obtain rfl : start = stop := h
    exact ⟨rfl, fun _ => Or.inl rfl, Nat.le_refl _, rfl, fun _ o hstart hstop => by omega⟩
  | cons s rest ih =>
    obtain ⟨rfl, hpos, hrest⟩ := h
    have hs : SpansFrom s.start s.stop [s] := ⟨rfl, hpos, rfl⟩
    rw [fillSpans]
    split
    · rename_i hkeep
      have hsame : Filled m s.start s.stop need (Covers taken) [s] [s] need := by
        refine ⟨hs, fun _ => Or.inl rfl, Nat.le_refl _, rfl, fun hneed o hstart hstop hnone => ?_⟩
        rw [hs.ownerAt?_cons hstart, if_pos hstop] at hnone
        rcases hkeep with howned | hzero
        · rw [hnone] at howned
          cases howned
        · omega
      exact Filled.append hs hrest hsame (ih _ hrest)
    · rename_i hfree
      have hnone : s.owner = none := by
        cases howner : s.owner with
        | none => rfl
        | some m' => exact absurd (Or.inl (by rw [howner]; rfl)) hfree
      exact Filled.append hs hrest (fillRuns_freeRuns_spec m need hnone hapart) (ih _ hrest)

/-! ### From layer to layer -/

/-- No member owns an offset in two layers. -/
def Distinct (layers : List Layer) : Prop :=
  ∀ o m, (column layers o).count (some m) ≤ 1

/-- Only the offsets within the layers count. -/
theorem distinct_of_lt {size : Nat} {layers : List Layer}
    (hspans : ∀ layer ∈ layers, SpansFrom 0 size layer)
    (h : ∀ o < size, ∀ m, (column layers o).count (some m) ≤ 1) : Distinct layers := by
  intro o m
  by_cases ho : o < size
  · exact h o ho m
  · have hzero : (column layers o).count (some m) = 0 := by
      refine List.count_eq_zero.2 fun hmem => ?_
      obtain ⟨layer, hl, howner⟩ := List.mem_map.1 hmem
      rw [(hspans layer hl).ownerAt?_eq_none (Or.inr (by omega))] at howner
      cases howner
    omega

/-- Every offset that nobody owns in some layer is one that the member owns in another. -/
def Exhausted (size m : Nat) (layers : List Layer) : Prop :=
  ∀ layer ∈ layers, ∀ o < size, ownerAt? layer o = none → some m ∈ column layers o

theorem mem_column_of_forall₂ {size m o : Nat} {gains : Nat → Prop} {before after : List Layer}
    (h : List.Forall₂ (Reassigned 0 size (Gain gains)) before after)
    (hm : some m ∈ column before o) : some m ∈ column after o := by
  induction h with
  | nil => cases hm
  | cons hab _ ih =>
    rw [column_cons] at hm ⊢
    rcases List.mem_cons.1 hm with h | h
    · rw [(hab.owner o).eq_some h.symm]
      exact List.mem_cons_self ..
    · exact List.mem_cons_of_mem _ (ih h)

/-- Filling one of several layers changes only that layer. -/
theorem forall₂_replace {size : Nat} {change : Option Nat → Option Nat → Prop}
    (hrefl : ∀ a, change a a) (xs ys : List Layer) {layer layer' : Layer}
    (hxs : ∀ l ∈ xs, SpansFrom 0 size l) (hys : ∀ l ∈ ys, SpansFrom 0 size l)
    (h : Reassigned 0 size change layer layer') :
    List.Forall₂ (Reassigned 0 size change) (xs ++ layer :: ys) (xs ++ layer' :: ys) :=
  List.rel_append (forall₂_reassigned_refl hrefl hxs) (.cons h (forall₂_reassigned_refl hrefl hys))

/-- A member that takes offsets in one layer only where it owns them in no other does not come to
own an offset twice. -/
theorem Distinct.replace {xs ys : List Layer} {layer layer' : Layer} {m : Nat}
    (h : Distinct (xs ++ layer :: ys))
    (howner : ∀ o, ownerAt? layer' o = ownerAt? layer o ∨
      (ownerAt? layer o = none ∧ some m ∉ column (xs ++ layer :: ys) o ∧
        ownerAt? layer' o = some m)) : Distinct (xs ++ layer' :: ys) := by
  intro o m'
  have hbefore := h o m'
  rw [column_append, column_cons, List.count_append, List.count_cons] at hbefore ⊢
  rcases howner o with hsame | ⟨hnone, hnot, hgain⟩
  · rw [hsame]
    exact hbefore
  · rw [hgain]
    by_cases hm : m' = m
    · subst hm
      have hzero := List.count_eq_zero.2 hnot
      rw [column_append, column_cons, List.count_append, List.count_cons] at hzero
      simp only [BEq.rfl, if_true]
      omega
    · rw [if_neg (by simpa using Ne.symm hm)]
      omega

/-- Layers in which the member `m` was to get up to `need` offsets, and is left with the need `left`. -/
structure Spread (m size need : Nat) (before after : List Layer) (left : Nat) : Prop where
  changed : List.Forall₂ (Reassigned 0 size (Gain fun m' => m' = m ∧ 0 < need)) before after
  left_le : left ≤ need
  holding_add : holding after m + left = holding before m + need
  distinct : Distinct before → Distinct after

theorem Spread.refl (m need : Nat) {size : Nat} {layers : List Layer}
    (h : ∀ layer ∈ layers, SpansFrom 0 size layer) : Spread m size need layers layers need :=
  ⟨forall₂_reassigned_refl .keep h, Nat.le_refl _, rfl, id⟩

theorem Spread.trans {m size need between left : Nat} {xs ys zs : List Layer}
    (hxy : Spread m size need xs ys between) (hyz : Spread m size between ys zs left) :
    Spread m size need xs zs left where
  changed := by
    refine forall₂_reassigned_trans (fun hab hbc => hab.trans (hbc.mono ?_)) hxy.changed hyz.changed
    rintro m' ⟨rfl, hpos⟩
    exact ⟨rfl, Nat.lt_of_lt_of_le hpos hxy.left_le⟩
  left_le := Nat.le_trans hyz.left_le hxy.left_le
  holding_add := by
    have hx := hxy.holding_add
    have hy := hyz.holding_add
    omega
  distinct := fun h => hyz.distinct (hxy.distinct h)

/-- What a member takes in one of several layers. -/
theorem spread_fillSpans (m need : Nat) {size : Nat} {done rest : List Layer} {layer : Layer}
    (h : ∀ l ∈ done ++ layer :: rest, SpansFrom 0 size l) :
    let out := fillSpans m (occupied (done ++ layer :: rest) m) need layer
    Spread m size need (done ++ layer :: rest) (done ++ tidy out.1 :: rest) out.2 ∧
      (0 < out.2 → ∀ o < size, ownerAt? (tidy out.1) o = none →
        some m ∈ column (done ++ layer :: rest) o) := by
  intro out
  obtain ⟨hapart, hcovers⟩ := occupied_spec h m
  have hfilled : Filled m 0 size need _ layer out.1 out.2 :=
    fillSpans_spec m need (h layer (by simp)) hapart
  obtain ⟨htidy, howner⟩ := tidy_spec hfilled.spans
  have hgain : Reassigned 0 size (Gain fun m' => m' = m ∧ 0 < need) layer (tidy out.1) := by
    refine ⟨htidy, fun o => ?_⟩
    rw [howner]
    rcases hfilled.owner o with hsame | ⟨hpos, hnone, -, hm⟩
    · rw [hsame]
      exact .keep _
    · rw [hnone, hm]
      exact .gain m ⟨rfl, hpos⟩
  refine ⟨⟨forall₂_replace .keep done rest (fun l hl => h l (by simp [hl]))
    (fun l hl => h l (by simp [hl])) hgain, hfilled.left_le, ?_, fun hdistinct => ?_⟩, ?_⟩
  · have hadd := hfilled.holding_add
    rw [holding_append, holding_cons, hfilled.spans.holding_tidy, holding_append,
      holding_cons layer rest]
    omega
  · refine hdistinct.replace (m := m) fun o => ?_
    rw [howner]
    refine (hfilled.owner o).imp_right fun ⟨_, hnone, hfree, hm⟩ => ⟨hnone, fun hmem => ?_, hm⟩
    exact hfree ((hcovers o).2 hmem)
  · intro hleft o ho hnone
    rw [howner] at hnone
    exact (hcovers o).1 (hfilled.exhausted hleft o (Nat.zero_le _) ho hnone)

/-- What a member takes in the layers after those that are done. -/
theorem fillLayers_spec (m need : Nat) {size : Nat} {done rest : List Layer}
    (h : ∀ layer ∈ done ++ rest, SpansFrom 0 size layer) :
    Spread m size need (done ++ rest) (fillLayers m done need rest).1
        (fillLayers m done need rest).2 ∧
      ((∀ layer ∈ done, ∀ o < size, ownerAt? layer o = none → some m ∈ column (done ++ rest) o) →
        0 < (fillLayers m done need rest).2 → Exhausted size m (fillLayers m done need rest).1) := by
  induction rest generalizing done need with
  | nil =>
    rw [List.append_nil] at h ⊢
    exact ⟨Spread.refl m need h, fun hdone _ => hdone⟩
  | cons layer rest ih =>
    rw [fillLayers]
    split
    · rename_i hneed
      subst hneed
      exact ⟨Spread.refl m 0 h, fun _ hleft => absurd hleft (Nat.lt_irrefl 0)⟩
    · obtain ⟨hstep, hover⟩ := spread_fillSpans m need h
      generalize fillSpans m (occupied (done ++ layer :: rest) m) need layer = out at hstep hover ⊢
      obtain ⟨spans, between⟩ := out
      dsimp only at hstep hover ⊢
      have hspans := spans_of_forall₂ hstep.changed
      rw [List.append_cons] at hspans
      obtain ⟨hafter, hexhausted⟩ := @ih between _ hspans
      rw [← List.append_cons] at hafter hexhausted
      refine ⟨hstep.trans hafter, fun hdone hpos => hexhausted (fun l hl o ho hnone => ?_) hpos⟩
      refine mem_column_of_forall₂ hstep.changed ?_
      rcases List.mem_append.1 hl with hl | hl
      · exact hdone l hl o ho hnone
      · -- What is left over in this layer the member owns in another one.
        obtain rfl := List.mem_singleton.1 hl
        exact hover (Nat.lt_of_lt_of_le hpos hafter.left_le) o ho hnone

/-! ### From member to member -/

/-- The members with a quota, the first of which is `first`, that hold less than their quota. -/
def Below (first : Nat) (quotas : List Nat) (layers : List Layer) (m : Nat) : Prop :=
  ∃ i quota, m = first + i ∧ quotas[i]? = some quota ∧ holding layers m < quota

theorem Below.head {k quota : Nat} {quotas : List Nat} {layers : List Layer} {m : Nat}
    (h : m = k ∧ 0 < quota - holding layers k) : Below k (quota :: quotas) layers m := by
  obtain ⟨rfl, hpos⟩ := h
  exact ⟨0, quota, rfl, rfl, by omega⟩

theorem Below.tail {k quota : Nat} {quotas : List Nat} {layers filled : List Layer}
    (hothers : ∀ m, m ≠ k → holding filled m = holding layers m) {m : Nat}
    (h : Below (k + 1) quotas filled m) : Below k (quota :: quotas) layers m := by
  obtain ⟨i, quota', rfl, hi, hlt⟩ := h
  rw [hothers _ (by omega)] at hlt
  exact ⟨i + 1, quota', by omega, hi, hlt⟩

theorem Below.first_le {k : Nat} {quotas : List Nat} {layers : List Layer} {m : Nat}
    (h : Below k quotas layers m) : k ≤ m := by
  obtain ⟨i, _, rfl, -⟩ := h
  exact Nat.le_add_right _ _

/-- One member is filled, and nobody else holds more or less than before. -/
theorem fillLayers_nil_spec (m need : Nat) {size : Nat} {layers : List Layer}
    (h : ∀ layer ∈ layers, SpansFrom 0 size layer) :
    let after := (fillLayers m [] need layers).1
    let left := (fillLayers m [] need layers).2
    Spread m size need layers after left ∧ (∀ m', m' ≠ m → holding after m' = holding layers m') ∧
      (0 < left → Exhausted size m after) := by
  obtain ⟨hspread, hexhausted⟩ := @fillLayers_spec m need size [] layers h
  refine ⟨hspread, fun m' hm' => ?_, hexhausted ?_⟩
  · exact holding_eq_of_forall₂ h hspread.changed fun a b hab =>
      hab.eq_some_iff fun hgain => hm' hgain.1
  · intro layer hl
    cases hl

/-- One member gains, and then members after it do: nobody gains who held its quota from the start. -/
theorem forall₂_gain_below {size k quota : Nat} {quotas : List Nat} {layers filled after : List Layer}
    (hfirst : List.Forall₂ (Reassigned 0 size (Gain fun m => m = k ∧ 0 < quota - holding layers k))
      layers filled)
    (hothers : ∀ m, m ≠ k → holding filled m = holding layers m)
    (hrest : List.Forall₂ (Reassigned 0 size (Gain (Below (k + 1) quotas filled))) filled after) :
    List.Forall₂ (Reassigned 0 size (Gain (Below k (quota :: quotas) layers))) layers after := by
  refine forall₂_reassigned_trans (fun hab hbc => ?_) hfirst hrest
  exact (hab.mono fun m => Below.head).trans (hbc.mono fun m => Below.tail hothers)

/-- A member keeps what it holds while later ones gain. -/
theorem holding_eq_of_gain_below {size k : Nat} {quotas : List Nat} {filled after : List Layer}
    (h : ∀ layer ∈ filled, SpansFrom 0 size layer)
    (hrest : List.Forall₂ (Reassigned 0 size (Gain (Below (k + 1) quotas filled))) filled after) :
    holding after k = holding filled k := by
  refine holding_eq_of_forall₂ h hrest fun a b hab => hab.eq_some_iff fun hbelow => ?_
  have := hbelow.first_le
  omega

/-- When all members reach their quotas, each of them holds the larger of its quota and what it
held, and only members below their quota have gained offsets. -/
theorem fillFrom?_eq_some {size k : Nat} {layers after : List Layer} {quotas : List Nat}
    (h : ∀ layer ∈ layers, SpansFrom 0 size layer) (hfill : fillFrom? k layers quotas = some after) :
    List.Forall₂ (Reassigned 0 size (Gain (Below k quotas layers))) layers after ∧
      (Distinct layers → Distinct after) ∧
      ∀ i quota, quotas[i]? = some quota →
        holding after (k + i) = max (holding layers (k + i)) quota := by
  induction quotas generalizing k layers with
  | nil =>
    obtain rfl := Option.some.inj hfill
    exact ⟨forall₂_reassigned_refl .keep h, id, fun i quota hi => by simp at hi⟩
  | cons quota quotas ih =>
    rw [fillFrom?] at hfill
    obtain ⟨⟨hchanged, hle, hadd, hdistinct⟩, hothers, -⟩ :=
      fillLayers_nil_spec k (quota - holding layers k) h
    generalize fillLayers k [] (quota - holding layers k) layers = out at *
    obtain ⟨filled, left⟩ := out
    dsimp only at *
    split at hfill
    · rename_i hleft
      have hspans := spans_of_forall₂ hchanged
      obtain ⟨hrest, hrestdistinct, hrestholding⟩ := ih hspans hfill
      refine ⟨forall₂_gain_below hchanged hothers hrest, fun hd => hrestdistinct (hdistinct hd),
        fun i quota' hi => ?_⟩
      cases i with
      | zero =>
        obtain rfl : quota = quota' := by simpa using hi
        rw [Nat.add_zero, holding_eq_of_gain_below hspans hrest]
        omega
      | succ i =>
        have := hrestholding i quota' (by simpa using hi)
        rw [show k + (i + 1) = k + 1 + i by omega, this, hothers _ (by omega)]
    · cases hfill

/-- When some member does not reach its quota, the filling has come to a point where all that is
left over in some layer is what that member owns in another. -/
theorem fillFrom?_eq_none {size k : Nat} {layers : List Layer} {quotas : List Nat}
    (h : ∀ layer ∈ layers, SpansFrom 0 size layer) (hfill : fillFrom? k layers quotas = none) :
    ∃ after i quota, quotas[i]? = some quota ∧
      List.Forall₂ (Reassigned 0 size (Gain (Below k quotas layers))) layers after ∧
      holding after (k + i) < quota ∧ Exhausted size (k + i) after ∧
      ∀ j quota', quotas[j]? = some quota' →
        holding after (k + j) ≤ max (holding layers (k + j)) quota' := by
  induction quotas generalizing k layers with
  | nil => cases hfill
  | cons quota quotas ih =>
    rw [fillFrom?] at hfill
    obtain ⟨⟨hchanged, hle, hadd, -⟩, hothers, hexhausted⟩ :=
      fillLayers_nil_spec k (quota - holding layers k) h
    generalize fillLayers k [] (quota - holding layers k) layers = out at *
    obtain ⟨filled, left⟩ := out
    dsimp only at *
    split at hfill
    · have hspans := spans_of_forall₂ hchanged
      obtain ⟨after, i, quota', hi, hrest, hlt, hex, hbound⟩ := ih hspans hfill
      have hindex : ∀ i, k + (i + 1) = k + 1 + i := fun i => by omega
      refine ⟨after, i + 1, quota', by simpa using hi, forall₂_gain_below hchanged hothers hrest,
        by rwa [hindex], by rwa [hindex], fun j quota'' hj => ?_⟩
      cases j with
      | zero =>
        obtain rfl : quota = quota'' := by simpa using hj
        rw [Nat.add_zero, holding_eq_of_gain_below hspans hrest]
        omega
      | succ j =>
        have := hbound j quota'' (by simpa using hj)
        rw [hothers _ (by omega)] at this
        rwa [hindex]
    · -- This member is the one that lacks some; the later ones have gained nothing yet.
      refine ⟨filled, 0, quota, rfl, hchanged.imp fun _ _ hab => hab.mono fun _ _ =>
        Gain.mono fun m => Below.head, by rw [Nat.add_zero]; omega, hexhausted (by omega),
        fun j quota' hj => ?_⟩
      cases j with
      | zero =>
        obtain rfl : quota = quota' := by simpa using hj
        rw [Nat.add_zero]
        omega
      | succ j =>
        rw [hothers _ (by omega)]
        exact Nat.le_max_left _ _

end ReplicaRing.Layer
