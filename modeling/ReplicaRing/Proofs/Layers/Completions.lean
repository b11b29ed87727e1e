import ReplicaRing.Proofs.Layers.Adjusting

/-!
# What filling finds and what it misses

A completion of layers hands offsets that nobody owns to members until each of them holds its quota,
and nobody an offset twice (`Layer.Completes`). Filling looks for one member by member and never
takes back what an earlier member was given.

One member in its turn is served as well as it can be (`fillLayers_eq_zero_iff`): if it falls short,
every offset left over is one that it owns already, so no other way of handing offsets to it alone
would serve it either. Filling therefore fails exactly when, after the members before it have been
served, some member cannot be served (`fill?_eq_none_iff`). What a turn takes may be what a later
member needed, so there can be a completion all the same; but not if only one member is below its
quota (`fill?_ne_none_of_completes`), and never if there is one layer or one for each member
(`fill?_singleton_ne_none`, `fill?_ne_none_of_length`).
-/

namespace ReplicaRing.Layer

open PlacementRequest (ownerAt?)

/-- Layers that come out of others by handing offsets that nobody owns to members, such that every
member holds its quota and nobody an offset twice. -/
structure Completes (size : Nat) (quotas : List Nat) (before after : List Layer) : Prop where
  layout : Layout size before.length quotas after
  gains : List.Forall₂ (Reassigned 0 size (Gain (· < quotas.length))) before after

/-- Some way of handing out offsets that nobody owns gives the member `m` its quota, and nobody an
offset twice. -/
def CanServe (size m quota : Nat) (layers : List Layer) : Prop :=
  ∃ after, List.Forall₂ (Reassigned 0 size (Gain fun _ => True)) layers after ∧ Distinct after ∧
    quota ≤ holding after m

section Turns

variable {size m k quota : Nat} {quotas : List Nat} {layers before after filled : List Layer}

theorem forall₂_gain_mono {gains gains' : Nat → Prop} (h : ∀ m, gains m → gains' m)
    (hab : List.Forall₂ (Reassigned 0 size (Gain gains)) before after) :
    List.Forall₂ (Reassigned 0 size (Gain gains')) before after :=
  hab.imp fun _ _ => Reassigned.mono fun _ _ => Gain.mono h

/-- A member that holds its quota already can be served. -/
theorem canServe_of_le (hspans : ∀ layer ∈ layers, SpansFrom 0 size layer)
    (hdistinct : Distinct layers) (h : quota ≤ holding layers m) : CanServe size m quota layers :=
  ⟨layers, forall₂_reassigned_refl .keep hspans, hdistinct, h⟩

/-- Every member can be served for which there is a completion. -/
theorem Completes.canServe (h : Completes size quotas layers after)
    (hm : quotas[m]? = some quota) : CanServe size m quota layers :=
  ⟨after, forall₂_gain_mono (fun _ _ => trivial) h.gains, h.layout.distinct,
    Nat.le_of_eq (h.layout.held m quota hm).symm⟩

/-! ### One turn -/

/-- Where a member owns an offset after one handing out, it owns the offset after another one that
leaves it nothing to take. -/
theorem mem_column_of_exhausted {gains gains' : Nat → Prop} {other : List Layer}
    (hgains' : ∀ m', gains' m' → m' = m)
    (hother : List.Forall₂ (Reassigned 0 size (Gain gains)) before other)
    (hafter : List.Forall₂ (Reassigned 0 size (Gain gains')) before after)
    (hexhausted : Exhausted size m after) {o : Nat} (ho : o < size)
    (h : some m ∈ column other o) : some m ∈ column after o := by
  obtain ⟨layer, hlayer, howner⟩ := List.mem_map.1 h
  obtain ⟨j, hj, rfl⟩ := List.mem_iff_getElem.1 hlayer
  have hj₀ : j < before.length := by
    rw [hother.length_eq]
    exact hj
  have hj' : j < after.length := by
    rw [← hafter.length_eq]
    exact hj₀
  have hgain := (hother.get hj₀ hj).owner o
  have hgain' := (hafter.get hj₀ hj').owner o
  simp only [List.get_eq_getElem] at hgain hgain'
  have hmem : ownerAt? after[j] o ∈ column after o :=
    List.mem_map.2 ⟨_, List.getElem_mem hj', rfl⟩
  rw [howner] at hgain
  generalize ownerAt? before[j] o = first at hgain hgain'
  cases hgain with
  | keep =>
    rwa [hgain'.eq_some rfl] at hmem
  | gain _ _ =>
    -- Nobody owned the offset in this layer: either the member has it now, or it is left over.
    generalize hnow : ownerAt? after[j] o = now at hgain' hmem
    cases hgain' with
    | keep => exact hexhausted _ (List.getElem_mem hj') o ho hnow
    | gain m' hm' =>
      rwa [hgains' m' hm'] at hmem

/-- A member in its turn reaches its quota exactly if that can be done at all. -/
theorem fillLayers_eq_zero_iff (h : ∀ layer ∈ layers, SpansFrom 0 size layer)
    (hdistinct : Distinct layers) :
    (fillLayers m [] (quota - holding layers m) layers).2 = 0 ↔ CanServe size m quota layers := by
  obtain ⟨⟨hchanged, hle, hadd, hkept⟩, -, hexhausted⟩ :=
    fillLayers_nil_spec m (quota - holding layers m) h
  generalize fillLayers m [] (quota - holding layers m) layers = out at *
  obtain ⟨after, left⟩ := out
  dsimp only at *
  constructor
  · intro hleft
    exact ⟨after, forall₂_gain_mono (fun _ _ => trivial) hchanged, hkept hdistinct, by omega⟩
  · rintro ⟨other, hother, hdistinct', hquota⟩
    by_contra hleft
    have hcount : holding other m ≤ holding after m := by
      rw [holding_eq_sum_count (spans_of_forall₂ hother),
        holding_eq_sum_count (spans_of_forall₂ hchanged)]
      refine Finset.sum_le_sum fun o ho => ?_
      by_cases hmem : some m ∈ column other o
      · have hafter := mem_column_of_exhausted (fun _ hm' => hm'.1) hother hchanged
          (hexhausted (Nat.pos_of_ne_zero hleft)) (Finset.mem_range.1 ho) hmem
        exact Nat.le_trans (hdistinct' o m) (List.count_pos_iff.2 hafter)
      · rw [List.count_eq_zero.2 hmem]
        exact Nat.zero_le _
    omega

/-! ### All turns -/

/-- Filling fails exactly if there is a member that cannot be served once those before it have
been. -/
theorem fillFrom?_eq_none_iff (h : ∀ layer ∈ layers, SpansFrom 0 size layer)
    (hdistinct : Distinct layers) :
    fillFrom? k layers quotas = none ↔ ∃ i quota filled, quotas[i]? = some quota ∧
      fillFrom? k layers (quotas.take i) = some filled ∧ ¬ CanServe size (k + i) quota filled := by
  induction quotas generalizing k layers with
  | nil => simp [fillFrom?]
  | cons quota quotas ih =>
    have hturn := @fillLayers_eq_zero_iff size k quota layers h hdistinct
    obtain ⟨hspread, -⟩ := fillLayers_nil_spec k (quota - holding layers k) h
    have hrest := @ih (k + 1) (fillLayers k [] (quota - holding layers k) layers).1
      (spans_of_forall₂ hspread.changed) (hspread.distinct hdistinct)
    by_cases hserved : (fillLayers k [] (quota - holding layers k) layers).2 = 0
    · have hstep : ∀ rest, fillFrom? k layers (quota :: rest) =
          fillFrom? (k + 1) (fillLayers k [] (quota - holding layers k) layers).1 rest := by
        intro rest
        rw [fillFrom?]
        exact if_pos hserved
      rw [hstep, hrest]
      constructor
      · rintro ⟨i, quota', filled, hi, hfilled, hnot⟩
        refine ⟨i + 1, quota', filled, hi, ?_, ?_⟩
        · rw [List.take_succ_cons, hstep, hfilled]
        · rwa [show k + (i + 1) = k + 1 + i by omega]
      · rintro ⟨i, quota', filled, hi, hfilled, hnot⟩
        cases i with
        | zero =>
          obtain rfl : quota = quota' := Option.some.inj hi
          obtain rfl : layers = filled := Option.some.inj hfilled
          exact absurd (hturn.1 hserved) hnot
        | succ i =>
          rw [List.take_succ_cons, hstep] at hfilled
          rw [show k + (i + 1) = k + 1 + i by omega] at hnot
          exact ⟨i, quota', filled, hi, hfilled, hnot⟩
    · have hnone : fillFrom? k layers (quota :: quotas) = none := by
        rw [fillFrom?]
        exact if_neg hserved
      exact iff_of_true hnone ⟨0, quota, layers, rfl, rfl, fun hcan => hserved (hturn.2 hcan)⟩

theorem fill?_eq_none_iff (h : ∀ layer ∈ layers, SpansFrom 0 size layer)
    (hdistinct : Distinct layers) :
    fill? quotas layers = none ↔ ∃ i quota filled, quotas[i]? = some quota ∧
      fill? (quotas.take i) layers = some filled ∧ ¬ CanServe size i quota filled := by
  have hfrom := @fillFrom?_eq_none_iff size 0 quotas layers h hdistinct
  simp only [Nat.zero_add] at hfrom
  exact hfrom

/-- What filling finds is a completion, if nobody holds more than its quota to begin with. -/
theorem completes_of_fill? (h : ∀ layer ∈ layers, SpansFrom 0 size layer)
    (hdistinct : Distinct layers)
    (hcapped : ∀ m quota, quotas[m]? = some quota → holding layers m ≤ quota)
    (hfill : fill? quotas layers = some after) : Completes size quotas layers after := by
  obtain ⟨hgains, hkept, hheld⟩ := fillFrom?_eq_some h hfill
  refine ⟨⟨hgains.length_eq.symm, spans_of_forall₂ hgains, hkept hdistinct, fun m quota hm => ?_⟩,
    forall₂_gain_mono ?_ hgains⟩
  · have hmax := hheld m quota hm
    rw [Nat.zero_add] at hmax
    rw [hmax, Nat.max_eq_right (hcapped m quota hm)]
  · rintro m ⟨i, quota, rfl, hi, -⟩
    rw [Nat.zero_add]
    exact (List.getElem?_eq_some_iff.1 hi).1

/-! ### When filling misses nothing -/

/-- What is handed out by turns before a member's own does not change what it holds. -/
theorem holding_eq_of_fill?_take (h : ∀ layer ∈ layers, SpansFrom 0 size layer)
    (hfill : fill? (quotas.take m) layers = some filled) : holding filled m = holding layers m := by
  obtain ⟨hgains, -, -⟩ := fillFrom?_eq_some h hfill
  refine holding_eq_of_forall₂ h hgains fun a b hab => hab.eq_some_iff ?_
  rintro ⟨i, _, heq, hi, -⟩
  have hlt := (List.getElem?_eq_some_iff.1 hi).1
  rw [List.length_take] at hlt
  omega

/-- If only one member is below its quota, filling finds a completion whenever there is one. -/
theorem fill?_ne_none_of_completes (h : ∀ layer ∈ layers, SpansFrom 0 size layer)
    (hdistinct : Distinct layers)
    (hone : ∀ i j, Below 0 quotas layers i → Below 0 quotas layers j → i = j)
    (hcompletes : Completes size quotas layers after) : fill? quotas layers ≠ none := by
  intro hnone
  obtain ⟨i, quota, filled, hi, hfilled, hnot⟩ := (fill?_eq_none_iff h hdistinct).1 hnone
  obtain ⟨hgains, hkept, -⟩ := fillFrom?_eq_some h hfilled
  have hheld := holding_eq_of_fill?_take h hfilled
  by_cases hle : quota ≤ holding layers i
  · exact hnot (canServe_of_le (spans_of_forall₂ hgains) (hkept hdistinct) (hheld ▸ hle))
  · have hbelow : Below 0 quotas layers i := ⟨i, quota, (Nat.zero_add i).symm, hi, by omega⟩
    -- The members before this one hold their quotas, so it is served first.
    have hfirst : fill? (quotas.take i) layers = some layers := by
      refine fill?_eq_self fun j quota' hj => ?_
      rw [List.getElem?_take] at hj
      split at hj
      · rename_i hlt
        by_contra hless
        have := hone i j hbelow ⟨j, quota', (Nat.zero_add j).symm, hj, by omega⟩
        omega
      · cases hj
    obtain rfl := Option.some.inj (hfirst.symm.trans hfilled)
    exact hnot (hcompletes.canServe hi)

/-- Handing out offsets makes nobody an owner but those who gain some. -/
theorem lt_of_mem_column_of_gain {gains : Nat → Prop} {n o : Nat}
    (h : List.Forall₂ (Reassigned 0 size (Gain gains)) before after) (hgains : ∀ m, gains m → m < n)
    (hbefore : ∀ m, some m ∈ column before o → m < n) {m : Nat} (hm : some m ∈ column after o) :
    m < n := by
  induction h with
  | nil => cases hm
  | cons hab _ ih =>
    simp only [column_cons, List.mem_cons] at hbefore hm
    rcases hm with hm | hm
    · have hgain := hab.owner o
      rw [← hm] at hgain
      generalize hfirst : ownerAt? _ o = first at hgain hbefore
      cases hgain with
      | keep => exact hbefore m (Or.inl rfl)
      | gain _ hm => exact hgains m hm
    · exact ih (fun m' hm' => hbefore m' (Or.inr hm')) hm

/-- With as many layers as members, every member can be served: the others cannot own all of an
offset that it does not own. -/
theorem canServe_of_length {n : Nat} (h : ∀ layer ∈ layers, SpansFrom 0 size layer)
    (hdistinct : Distinct layers) (hlength : layers.length = n)
    (howners : ∀ o < size, ∀ m, some m ∈ column layers o → m < n) (hm : m < n)
    (hquota : quota ≤ size) : CanServe size m quota layers := by
  rw [← fillLayers_eq_zero_iff h hdistinct]
  obtain ⟨⟨hchanged, hle, hadd, hkept⟩, -, hexhausted⟩ :=
    fillLayers_nil_spec m (quota - holding layers m) h
  generalize fillLayers m [] (quota - holding layers m) layers = out at *
  obtain ⟨after, left⟩ := out
  dsimp only at *
  by_contra hleft
  have hspans := spans_of_forall₂ hchanged
  -- Some offset is missing to the member, so it has the owners of all others only.
  have hmissing : ∃ o < size, some m ∉ column after o := by
    by_contra hall
    push Not at hall
    have hsize : ∑ _o ∈ Finset.range size, 1 ≤ holding after m := by
      rw [holding_eq_sum_count hspans]
      exact Finset.sum_le_sum fun o ho => List.count_pos_iff.2 (hall o (Finset.mem_range.1 ho))
    rw [Finset.sum_const_nat fun _ _ => rfl, Finset.card_range, Nat.mul_one] at hsize
    omega
  obtain ⟨o, ho, hout⟩ := hmissing
  have hall : (column after o).countP (·.any (· < n)) = n := by
    rw [List.countP_eq_length.2, length_column, ← hchanged.length_eq, hlength]
    intro owner howner
    cases owner with
    | none =>
      obtain ⟨layer, hlayer, hnone⟩ := List.mem_map.1 howner
      exact absurd (hexhausted (Nat.pos_of_ne_zero hleft) layer hlayer o ho hnone) hout
    | some m' =>
      have hlt := lt_of_mem_column_of_gain hchanged (fun m' hm' => hm'.1 ▸ hm) (howners o ho) howner
      simpa using hlt
  have hfew : ∑ m' ∈ Finset.range n, (column after o).count (some m') <
      ∑ _m' ∈ Finset.range n, 1 := by
    refine Finset.sum_lt_sum (fun m' _ => hkept hdistinct o m') ⟨m, Finset.mem_range.2 hm, ?_⟩
    rw [List.count_eq_zero.2 hout]
    exact Nat.one_pos
  rw [sum_count_range, hall, Finset.sum_const_nat fun _ _ => rfl, Finset.card_range,
    Nat.mul_one] at hfew
  exact Nat.lt_irrefl n hfew

/-- With as many layers as members, filling always succeeds. -/
theorem fill?_ne_none_of_length (h : ∀ layer ∈ layers, SpansFrom 0 size layer)
    (hdistinct : Distinct layers) (hlength : layers.length = quotas.length)
    (howners : ∀ o < size, ∀ m, some m ∈ column layers o → m < quotas.length)
    (hle : ∀ quota ∈ quotas, quota ≤ size) : fill? quotas layers ≠ none := by
  intro hnone
  obtain ⟨i, quota, filled, hi, hfilled, hnot⟩ := (fill?_eq_none_iff h hdistinct).1 hnone
  obtain ⟨hgains, hkept, -⟩ := fillFrom?_eq_some h hfilled
  refine hnot (canServe_of_length (spans_of_forall₂ hgains) (hkept hdistinct)
    (hgains.length_eq.symm.trans hlength) (fun o ho m => ?_) (List.getElem?_eq_some_iff.1 hi).1
    (hle quota (List.mem_of_getElem? hi)))
  refine lt_of_mem_column_of_gain hgains ?_ (howners o ho)
  rintro m' ⟨j, _, rfl, hj, -⟩
  have hlt := (List.getElem?_eq_some_iff.1 hj).1
  rw [List.length_take] at hlt
  omega

end Turns

end ReplicaRing.Layer
