import ReplicaRing.Proofs.Layers.Spans

/-!
# Occupied and free offsets

The offsets that a member holds in some layer are kept as half-open runs that come in order and do
not touch (`Layer.Spaced`). `occupied` covers exactly those offsets (`covers_occupied`), whatever
the order and the overlap of the spans it unites, and `freeRuns` is the exact difference of an
interval and such runs (`covers_freeRuns`). `freeRuns_exact` puts both together.

An empty span leaves an empty run behind, which covers nothing. Layers of a placement have no empty
spans, and then no run is empty either (`Layer.Apart`), so the runs are determined by what they
cover (`Apart.eq_of_covers`).
-/

namespace ReplicaRing.Layer

open PlacementRequest (ownerAt?)

/-- Half-open runs in order, of which no two overlap or touch. A run may be empty. -/
def Spaced (runs : List (Nat × Nat)) : Prop :=
  (∀ r ∈ runs, r.1 ≤ r.2) ∧ runs.Pairwise fun r s => r.2 < s.1

/-- Half-open runs in order: none is empty, and no two overlap or touch. -/
def Apart (runs : List (Nat × Nat)) : Prop :=
  (∀ r ∈ runs, r.1 < r.2) ∧ runs.Pairwise fun r s => r.2 < s.1

/-- The offsets of half-open runs. -/
def Covers (runs : List (Nat × Nat)) (o : Nat) : Prop :=
  ∃ r ∈ runs, r.1 ≤ o ∧ o < r.2

theorem Apart.spaced {runs : List (Nat × Nat)} (h : Apart runs) : Spaced runs :=
  ⟨fun r hr => Nat.le_of_lt (h.1 r hr), h.2⟩

theorem spaced_cons {r : Nat × Nat} {rest : List (Nat × Nat)} :
    Spaced (r :: rest) ↔ r.1 ≤ r.2 ∧ (∀ s ∈ rest, r.2 < s.1) ∧ Spaced rest := by
  simp only [Spaced, List.forall_mem_cons, List.pairwise_cons]
  tauto

theorem apart_cons {r : Nat × Nat} {rest : List (Nat × Nat)} :
    Apart (r :: rest) ↔ r.1 < r.2 ∧ (∀ s ∈ rest, r.2 < s.1) ∧ Apart rest := by
  simp only [Apart, List.forall_mem_cons, List.pairwise_cons]
  tauto

theorem not_covers_nil (o : Nat) : ¬ Covers [] o := by
  rintro ⟨r, hr, -⟩
  cases hr

theorem covers_cons {r : Nat × Nat} {rest : List (Nat × Nat)} {o : Nat} :
    Covers (r :: rest) o ↔ r.1 ≤ o ∧ o < r.2 ∨ Covers rest o := by
  simp [Covers]

theorem covers_append {xs ys : List (Nat × Nat)} {o : Nat} :
    Covers (xs ++ ys) o ↔ Covers xs o ∨ Covers ys o := by
  simp [Covers, or_and_right, exists_or]

/-- What the later runs cover lies behind the first one, and does not touch it. -/
theorem Spaced.lt_of_covers {r : Nat × Nat} {rest : List (Nat × Nat)} (h : Spaced (r :: rest))
    {o : Nat} (ho : Covers rest o) : r.2 < o := by
  obtain ⟨s, hs, hso, -⟩ := ho
  exact Nat.lt_of_lt_of_le ((spaced_cons.1 h).2.1 s hs) hso

/-- Whatever a list covers, it covers from its first run on. -/
theorem Spaced.le_of_covers {r : Nat × Nat} {rest : List (Nat × Nat)} (h : Spaced (r :: rest))
    {o : Nat} (ho : Covers (r :: rest) o) : r.1 ≤ o := by
  rcases covers_cons.1 ho with ho | ho
  · exact ho.1
  · have hlt := h.lt_of_covers ho
    have hle := (spaced_cons.1 h).1
    omega

/-- An offset is covered by a later run exactly if it is covered and lies behind the first. -/
theorem Spaced.covers_tail {r : Nat × Nat} {rest : List (Nat × Nat)} (h : Spaced (r :: rest))
    {o : Nat} : Covers rest o ↔ Covers (r :: rest) o ∧ r.2 ≤ o := by
  rw [covers_cons]
  constructor
  · intro ho
    exact ⟨Or.inr ho, Nat.le_of_lt (h.lt_of_covers ho)⟩
  · rintro ⟨ho | ho, hle⟩
    · omega
    · exact ho

theorem Spaced.not_covers_stop {r : Nat × Nat} {rest : List (Nat × Nat)} (h : Spaced (r :: rest)) :
    ¬ Covers (r :: rest) r.2 := fun ho =>
  Nat.lt_irrefl _ (h.lt_of_covers (h.covers_tail.2 ⟨ho, Nat.le_refl _⟩))

theorem Apart.covers_start {r : Nat × Nat} {rest : List (Nat × Nat)} (h : Apart (r :: rest)) :
    Covers (r :: rest) r.1 :=
  covers_cons.2 (Or.inl ⟨Nat.le_refl _, (apart_cons.1 h).1⟩)

/-- Runs in order are determined by what they cover, unless some of them are empty: the first one
starts at the first offset that is covered and stops at the first one after it that is not. -/
theorem Apart.eq_of_covers {xs ys : List (Nat × Nat)} (hx : Apart xs) (hy : Apart ys)
    (h : ∀ o, Covers xs o ↔ Covers ys o) : xs = ys := by
  induction xs generalizing ys with
  | nil =>
    cases ys with
    | nil => rfl
    | cons y ys => exact absurd ((h y.1).2 hy.covers_start) (not_covers_nil _)
  | cons x xs ih =>
    cases ys with
    | nil => exact absurd ((h x.1).1 hx.covers_start) (not_covers_nil _)
    | cons y ys =>
      have hxpos := (apart_cons.1 hx).1
      have hypos := (apart_cons.1 hy).1
      have hstarts : x.1 = y.1 :=
        Nat.le_antisymm (hx.spaced.le_of_covers ((h y.1).2 hy.covers_start))
          (hy.spaced.le_of_covers ((h x.1).1 hx.covers_start))
      have hstops : x.2 = y.2 := by
        have hxstop := hx.spaced.not_covers_stop
        have hystop := hy.spaced.not_covers_stop
        rw [h, covers_cons, not_or] at hxstop
        rw [← h, covers_cons, not_or] at hystop
        omega
      have hrest : xs = ys := by
        refine ih (apart_cons.1 hx).2.2 (apart_cons.1 hy).2.2 fun o => ?_
        rw [hx.spaced.covers_tail, hy.spaced.covers_tail, h, hstops]
      rw [hrest, Prod.ext hstarts hstops]

/-! ### Uniting runs -/

theorem le_of_mem_uniteFrom {start : Nat} (stop : Nat) {rest : List (Nat × Nat)}
    (hle : ∀ r ∈ rest, start ≤ r.1) (hsorted : rest.Pairwise fun r s => r.1 ≤ s.1) :
    ∀ r ∈ uniteFrom start stop rest, start ≤ r.1 := by
  induction rest generalizing start stop with
  | nil =>
    intro r hr
    obtain rfl := List.mem_singleton.1 hr
    exact Nat.le_refl _
  | cons next rest ih =>
    obtain ⟨a, b⟩ := next
    obtain ⟨hnext, hrest⟩ := List.pairwise_cons.1 hsorted
    rw [uniteFrom]
    split
    · exact ih _ (fun r hr => hle r (List.mem_cons_of_mem _ hr)) hrest
    · intro r hr
      rcases List.mem_cons.1 hr with rfl | hr
      · exact Nat.le_refl _
      · have hstart := hle (a, b) (List.mem_cons_self ..)
        have := ih b hnext hrest r hr
        exact Nat.le_trans hstart this

/-- Uniting makes no empty runs. -/
theorem lt_of_mem_uniteFrom {start stop : Nat} {rest : List (Nat × Nat)} (hlt : start < stop)
    (hpos : ∀ r ∈ rest, r.1 < r.2) : ∀ r ∈ uniteFrom start stop rest, r.1 < r.2 := by
  induction rest generalizing start stop with
  | nil => simpa [uniteFrom] using hlt
  | cons next rest ih =>
    obtain ⟨a, b⟩ := next
    obtain ⟨hab, hrest⟩ := List.forall_mem_cons.1 hpos
    rw [uniteFrom]
    split
    · exact ih (by omega) hrest
    · exact List.forall_mem_cons.2 ⟨hlt, ih hab hrest⟩

/-- Uniting sorted runs gives spaced runs that cover the same offsets. -/
theorem uniteFrom_spec {start stop : Nat} {rest : List (Nat × Nat)} (hstop : start ≤ stop)
    (hle : ∀ r ∈ rest, start ≤ r.1) (hsorted : rest.Pairwise fun r s => r.1 ≤ s.1)
    (hordered : ∀ r ∈ rest, r.1 ≤ r.2) :
    Spaced (uniteFrom start stop rest) ∧
      ∀ o, Covers (uniteFrom start stop rest) o ↔ Covers ((start, stop) :: rest) o := by
  induction rest generalizing start stop with
  | nil => exact ⟨by simpa [uniteFrom, Spaced] using hstop, fun o => Iff.rfl⟩
  | cons next rest ih =>
    obtain ⟨a, b⟩ := next
    obtain ⟨hnext, hrest⟩ := List.pairwise_cons.1 hsorted
    have hstart : start ≤ a := hle (a, b) (List.mem_cons_self ..)
    obtain ⟨hab, hrestordered⟩ := List.forall_mem_cons.1 hordered
    dsimp only at hab
    rw [uniteFrom]
    split
    · -- The next run touches this one.
      obtain ⟨hspaced, hcovers⟩ := @ih _ (max stop b) (by omega)
        (fun r hr => hle r (List.mem_cons_of_mem _ hr)) hrest hrestordered
      refine ⟨hspaced, fun o => ?_⟩
      rw [hcovers, covers_cons, covers_cons, covers_cons]
      dsimp only
      constructor
      · rintro (ho | ho)
        · by_cases hstop : o < stop
          · exact Or.inl ⟨ho.1, hstop⟩
          · exact Or.inr (Or.inl ⟨by omega, by omega⟩)
        · exact Or.inr (Or.inr ho)
      · rintro (ho | ho | ho)
        · exact Or.inl ⟨ho.1, by omega⟩
        · exact Or.inl ⟨by omega, by omega⟩
        · exact Or.inr ho
    · -- It starts beyond this one, and so do all later ones.
      obtain ⟨hspaced, hcovers⟩ := ih hab hnext hrest hrestordered
      have hbeyond := le_of_mem_uniteFrom b hnext hrest
      refine ⟨spaced_cons.2 ⟨hstop, fun s hs => ?_, hspaced⟩, fun o => ?_⟩
      · have := hbeyond s hs
        dsimp only at this ⊢
        omega
      · rw [covers_cons, hcovers, covers_cons (r := (start, stop))]

theorem unite_spec {runs : List (Nat × Nat)} (hsorted : runs.Pairwise fun r s => r.1 ≤ s.1)
    (hordered : ∀ r ∈ runs, r.1 ≤ r.2) :
    Spaced (unite runs) ∧ ∀ o, Covers (unite runs) o ↔ Covers runs o := by
  cases runs with
  | nil => exact ⟨by simp [unite, Spaced], fun o => Iff.rfl⟩
  | cons r rest =>
    obtain ⟨hfirst, hrest⟩ := List.pairwise_cons.1 hsorted
    exact uniteFrom_spec (hordered r (List.mem_cons_self ..)) hfirst hrest
      fun s hs => hordered s (List.mem_cons_of_mem _ hs)

theorem lt_of_mem_unite {runs : List (Nat × Nat)} (hpos : ∀ r ∈ runs, r.1 < r.2) :
    ∀ r ∈ unite runs, r.1 < r.2 := by
  cases runs with
  | nil => simp [unite]
  | cons r rest =>
    obtain ⟨hr, hrest⟩ := List.forall_mem_cons.1 hpos
    exact lt_of_mem_uniteFrom hr hrest

theorem runPrecedes_total (a b : Nat × Nat) : runPrecedes a b = true ∨ runPrecedes b a = true := by
  simp only [runPrecedes, Bool.or_eq_true, Bool.and_eq_true, decide_eq_true_eq, beq_iff_eq]
  omega

theorem runPrecedes_trans (a b c : Nat × Nat) (hab : runPrecedes a b = true)
    (hbc : runPrecedes b c = true) : runPrecedes a c = true := by
  simp only [runPrecedes, Bool.or_eq_true, Bool.and_eq_true, decide_eq_true_eq, beq_iff_eq] at *
  omega

/-! ### What a member holds -/

/-- Whether some span of a member in some layer holds an offset. -/
def HeldBy (layers : List Layer) (m o : Nat) : Prop :=
  ∃ layer ∈ layers, ∃ s ∈ layer, s.owner = some m ∧ s.start ≤ o ∧ o < s.stop

/-- No span of a member is empty. -/
def Solid (layers : List Layer) (m : Nat) : Prop :=
  ∀ layer ∈ layers, ∀ s ∈ layer, s.owner = some m → 0 < s.length

/-- The runs that are united are those of the member's spans, put in order. -/
theorem mem_sortBy_runs {layers : List Layer} {m : Nat} {r : Nat × Nat} :
    r ∈ sortBy runPrecedes ((layers.flatten.filter fun s => s.owner = some m).map
        fun s => (s.start, s.stop)) ↔
      ∃ layer ∈ layers, ∃ s ∈ layer, s.owner = some m ∧ (s.start, s.stop) = r := by
  simp only [mem_sortBy, List.mem_map, List.mem_filter, List.mem_flatten, decide_eq_true_eq]
  constructor
  · rintro ⟨s, ⟨⟨layer, hl, hs⟩, howner⟩, heq⟩
    exact ⟨layer, hl, s, hs, howner, heq⟩
  · rintro ⟨layer, hl, s, hs, howner, heq⟩
    exact ⟨s, ⟨⟨layer, hl, hs⟩, howner⟩, heq⟩

theorem pairwise_sortBy_runs (runs : List (Nat × Nat)) :
    (sortBy runPrecedes runs).Pairwise fun r s => r.1 ≤ s.1 := by
  refine (pairwise_sortBy runPrecedes_total runPrecedes_trans runs).imp fun {a b} hab => ?_
  simp only [runPrecedes, Bool.or_eq_true, Bool.and_eq_true, decide_eq_true_eq, beq_iff_eq] at hab
  omega

/-- What a member holds is kept as spaced runs, whatever the order and the overlap of its spans. -/
theorem covers_occupied (layers : List Layer) (m : Nat) :
    Spaced (occupied layers m) ∧ ∀ o, Covers (occupied layers m) o ↔ HeldBy layers m o := by
  unfold occupied
  obtain ⟨hspaced, hcovers⟩ := unite_spec
    (pairwise_sortBy_runs ((layers.flatten.filter fun s => s.owner = some m).map
      fun s => (s.start, s.stop))) fun r hr => by
        obtain ⟨layer, -, s, -, -, rfl⟩ := mem_sortBy_runs.1 hr
        exact Nat.le_add_right s.start s.length
  refine ⟨hspaced, fun o => ?_⟩
  rw [hcovers]
  constructor
  · rintro ⟨r, hr, ho⟩
    obtain ⟨layer, hl, s, hs, howner, rfl⟩ := mem_sortBy_runs.1 hr
    exact ⟨layer, hl, s, hs, howner, ho⟩
  · rintro ⟨layer, hl, s, hs, howner, ho⟩
    exact ⟨_, mem_sortBy_runs.2 ⟨layer, hl, s, hs, howner, rfl⟩, ho⟩

theorem Solid.apart_occupied {layers : List Layer} {m : Nat} (h : Solid layers m) :
    Apart (occupied layers m) := by
  refine ⟨lt_of_mem_unite fun r hr => ?_, (covers_occupied layers m).1.2⟩
  obtain ⟨layer, hl, s, hs, howner, rfl⟩ := mem_sortBy_runs.1 hr
  exact Nat.lt_add_of_pos_right (h layer hl s hs howner)

/-- In layers whose spans follow one another, a member holds an offset if it stands in the column
there. -/
theorem heldBy_iff_mem_column {start stop : Nat} {layers : List Layer}
    (h : ∀ layer ∈ layers, SpansFrom start stop layer) {m o : Nat} :
    HeldBy layers m o ↔ some m ∈ column layers o := by
  unfold column
  rw [List.mem_map]
  constructor
  · rintro ⟨layer, hl, s, hs, howner, hstart, hstop⟩
    exact ⟨layer, hl, ((h layer hl).ownerAt?_of_mem hs hstart hstop).trans howner⟩
  · rintro ⟨layer, hl, howner⟩
    exact ⟨layer, hl, exists_span_of_ownerAt?_eq_some howner⟩

theorem occupied_spec {start stop : Nat} {layers : List Layer}
    (h : ∀ layer ∈ layers, SpansFrom start stop layer) (m : Nat) :
    Apart (occupied layers m) ∧
      ∀ o, Covers (occupied layers m) o ↔ some m ∈ column layers o := by
  have hsolid : Solid layers m := by
    intro layer hl s hs _
    have hbounds := (h layer hl).bounds hs
    exact Nat.pos_of_lt_add_right hbounds.2.1
  refine ⟨hsolid.apart_occupied, fun o => ?_⟩
  rw [(covers_occupied layers m).2, heldBy_iff_mem_column h]

/-! ### Free runs -/

section Interval

variable {start stop : Nat}

theorem mem_interval {r : Nat × Nat} (hr : r ∈ if start < stop then [(start, stop)] else []) :
    r.1 = start ∧ r.2 = stop ∧ r.1 < r.2 := by
  split at hr
  · obtain rfl := List.mem_singleton.1 hr
    exact ⟨rfl, rfl, by assumption⟩
  · cases hr

theorem pairwise_interval (R : Nat × Nat → Nat × Nat → Prop) :
    (if start < stop then [(start, stop)] else []).Pairwise R := by
  split
  · exact List.pairwise_singleton _ _
  · exact List.Pairwise.nil

theorem covers_interval {o : Nat} :
    Covers (if start < stop then [(start, stop)] else []) o ↔ start ≤ o ∧ o < stop := by
  split
  · simp [Covers]
  · simp only [Covers, List.not_mem_nil, false_and, exists_false, false_iff]
    omega

end Interval

theorem bounds_of_mem_freeRuns {start stop : Nat} {runs : List (Nat × Nat)} {r : Nat × Nat}
    (hr : r ∈ freeRuns start stop runs) : start ≤ r.1 ∧ r.1 < r.2 ∧ r.2 ≤ stop := by
  induction runs generalizing start with
  | nil =>
    have := mem_interval hr
    omega
  | cons run rest ih =>
    obtain ⟨a, b⟩ := run
    rw [freeRuns] at hr
    split at hr
    · exact ih hr
    · split at hr
      · have := mem_interval hr
        omega
      · rcases List.mem_append.1 hr with hr | hr
        · have := mem_interval hr
          omega
        · split at hr
          · cases hr
          · have := ih hr
            omega

/-- What lies between two free runs is taken, so they are as far apart as the two ends of a run that
is taken. -/
theorem pairwise_freeRuns (start stop : Nat) {runs : List (Nat × Nat)} {R : Nat → Nat → Prop}
    (hR : ∀ r ∈ runs, ∀ o, r.2 ≤ o → R r.1 o) :
    (freeRuns start stop runs).Pairwise fun r s => R r.2 s.1 := by
  induction runs generalizing start with
  | nil => exact pairwise_interval _
  | cons run rest ih =>
    obtain ⟨a, b⟩ := run
    obtain ⟨hrun, hrest⟩ := List.forall_mem_cons.1 hR
    rw [freeRuns]
    split
    · exact ih _ hrest
    · split
      · exact pairwise_interval _
      · refine List.pairwise_append.2 ⟨pairwise_interval _, ?_, fun r hr s hs => ?_⟩
        · split
          · exact List.Pairwise.nil
          · exact ih _ hrest
        · obtain ⟨-, hstop, -⟩ := mem_interval hr
          split at hs
          · cases hs
          · rw [hstop]
            exact hrun _ (bounds_of_mem_freeRuns hs).1

/-- The free runs do not touch if no run that is taken is empty. -/
theorem apart_freeRuns (start stop : Nat) {runs : List (Nat × Nat)} (h : Apart runs) :
    Apart (freeRuns start stop runs) :=
  ⟨fun _ hr => (bounds_of_mem_freeRuns hr).2.1,
    pairwise_freeRuns start stop fun r hr _ ho => Nat.lt_of_lt_of_le (h.1 r hr) ho⟩

/-- The free runs cover exactly the offsets of the interval that the given runs do not. -/
theorem covers_freeRuns {start stop : Nat} {runs : List (Nat × Nat)} (h : Spaced runs) (o : Nat) :
    Covers (freeRuns start stop runs) o ↔ start ≤ o ∧ o < stop ∧ ¬ Covers runs o := by
  induction runs generalizing start with
  | nil => simp [freeRuns, covers_interval, not_covers_nil]
  | cons run rest ih =>
    obtain ⟨a, b⟩ := run
    obtain ⟨hab, -, hrest⟩ := spaced_cons.1 h
    have hbehind : Covers rest o → b < o := h.lt_of_covers
    dsimp only at hab
    rw [freeRuns, covers_cons]
    dsimp only
    split
    · rw [ih hrest]
      by_cases hcovers : Covers rest o
      · simp [hcovers]
      · simp only [hcovers, or_false, not_false_eq_true, and_true]
        omega
    · split
      · -- The run and all later ones lie behind the interval.
        rw [covers_interval]
        by_cases hcovers : Covers rest o
        · have := hbehind hcovers
          simp only [hcovers, or_true, not_true_eq_false, and_false, iff_false]
          omega
        · simp only [hcovers, or_false]
          omega
      · have hback : Covers (if stop ≤ b then [] else freeRuns b stop rest) o ↔
            b ≤ o ∧ o < stop ∧ ¬ Covers rest o := by
          split
          · simp only [not_covers_nil, false_iff]
            omega
          · exact ih hrest
        rw [covers_append, covers_interval, hback]
        by_cases hcovers : Covers rest o
        · have := hbehind hcovers
          simp only [hcovers, not_true_eq_false, and_false, or_false, or_true, iff_false]
          omega
        · simp only [hcovers, not_false_eq_true, and_true, or_false]
          omega

example : freeRuns 0 10 [(2, 4), (6, 12)] = [(0, 2), (4, 6)] := by decide

/-! ### Exact differences -/

/-- The free runs of a span, given what a member occupies, are in order, disjoint, not empty and
within the span, and they cover exactly the offsets of the span that the member holds in no layer.
What a member occupies is kept as runs in order that neither overlap nor touch and cover exactly
what it holds. If none of its spans is empty, then no run is, and the runs depend on nothing but the
offsets that it holds: neither on the layers they are in, nor on how the spans overlap. -/
theorem freeRuns_exact (layers : List Layer) (m start stop : Nat) :
    ((∀ r ∈ freeRuns start stop (occupied layers m), start ≤ r.1 ∧ r.1 < r.2 ∧ r.2 ≤ stop) ∧
      (freeRuns start stop (occupied layers m)).Pairwise (fun r s => r.2 ≤ s.1) ∧
      ∀ o, Covers (freeRuns start stop (occupied layers m)) o ↔
        start ≤ o ∧ o < stop ∧ ¬ HeldBy layers m o) ∧
    ((∀ r ∈ occupied layers m, r.1 ≤ r.2) ∧
      (occupied layers m).Pairwise (fun r s => r.2 < s.1) ∧
      ∀ o, Covers (occupied layers m) o ↔ HeldBy layers m o) ∧
    (Solid layers m →
      (∀ r ∈ occupied layers m, r.1 < r.2) ∧
      ∀ layers', Solid layers' m → (∀ o, HeldBy layers' m o ↔ HeldBy layers m o) →
        occupied layers' m = occupied layers m) := by
  obtain ⟨hspaced, hcovers⟩ := covers_occupied layers m
  refine ⟨⟨fun r hr => bounds_of_mem_freeRuns hr, ?_, fun o => ?_⟩,
    ⟨hspaced.1, hspaced.2, hcovers⟩, fun hsolid => ⟨hsolid.apart_occupied.1, ?_⟩⟩
  · exact pairwise_freeRuns start stop fun r hr o ho => Nat.le_trans (hspaced.1 r hr) ho
  · rw [covers_freeRuns hspaced, hcovers]
  · intro layers' hsolid' hsame
    apply hsolid'.apart_occupied.eq_of_covers hsolid.apart_occupied
    intro o
    rw [(covers_occupied layers' m).2, hcovers, hsame]

/-- Two layers in which the spans of member 0 overlap at one offset and touch at another. -/
def touchingLayers : List Layer :=
  [[⟨0, 3, some 0⟩, ⟨3, 1, none⟩, ⟨4, 2, some 0⟩, ⟨6, 3, none⟩],
    [⟨0, 2, some 1⟩, ⟨2, 2, some 0⟩, ⟨4, 4, some 1⟩, ⟨8, 1, some 0⟩]]

theorem freeRuns_exact_touchingLayers :
    freeRuns 3 9 (occupied touchingLayers 0) = [(6, 8)] ∧
      (¬ HeldBy touchingLayers 0 7 ∧ HeldBy touchingLayers 0 5) ∧
      Solid touchingLayers 0 ∧ Solid touchingLayers.reverse 0 ∧
      occupied touchingLayers.reverse 0 = occupied touchingLayers 0 := by
  have hsolid : Solid touchingLayers 0 := by
    unfold Solid
    decide
  have hsolid' : Solid touchingLayers.reverse 0 := by
    unfold Solid
    decide
  have hruns : freeRuns 3 9 (occupied touchingLayers 0) = [(6, 8)] := by decide
  obtain ⟨⟨-, -, hfree⟩, ⟨-, -, hheld⟩, hsame⟩ := freeRuns_exact touchingLayers 0 3 9
  refine ⟨hruns, ⟨?_, ?_⟩, hsolid, hsolid', ?_⟩
  · rw [hruns] at hfree
    exact ((hfree 7).1 ⟨(6, 8), by simp, by decide, by decide⟩).2.2
  · exact (hheld 5).1 ⟨(0, 6), by decide, by decide, by decide⟩
  · refine (hsame hsolid).2 _ hsolid' fun o => ?_
    simp [HeldBy]

end ReplicaRing.Layer
