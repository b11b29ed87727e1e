import ReplicaRing.Proofs.Layers.Spans
import Mathlib.Data.List.Forall2

/-!
# Releasing what is above quota

A layer is reassigned when it covers the same offsets as before and each offset has changed its
owner in an allowed way (`Layer.Reassigned`). Releasing only ever takes owners away (`Loss`), and
only from members above their quota; afterwards each member holds what it held, capped at its quota
(`release_spec`).
-/

namespace ReplicaRing.Layer

open PlacementRequest (ownerAt?)

/-! ### Reassigned layers -/

/-- An offset keeps its owner, or loses it if the owner is one of `drops`. -/
inductive Loss (drops : Nat → Prop) : Option Nat → Option Nat → Prop
  | keep (owner : Option Nat) : Loss drops owner owner
  | drop (m : Nat) : drops m → Loss drops (some m) none

/-- A layer covers the offsets from `start` to `stop` and gives each of them an owner that `change`
allows in place of the former one. -/
structure Reassigned (start stop : Nat) (change : Option Nat → Option Nat → Prop)
    (before after : Layer) : Prop where
  spans : SpansFrom start stop after
  owner : ∀ o, change (ownerAt? before o) (ownerAt? after o)

theorem Loss.mono {drops drops' : Nat → Prop} (h : ∀ m, drops m → drops' m) {a b : Option Nat}
    (hab : Loss drops a b) : Loss drops' a b := by
  cases hab with
  | keep => exact .keep _
  | drop m hm => exact .drop m (h m hm)

theorem Loss.trans {drops : Nat → Prop} {a b c : Option Nat} (hab : Loss drops a b)
    (hbc : Loss drops b c) : Loss drops a c := by
  cases hab with
  | keep => exact hbc
  | drop m hm =>
    cases hbc with
    | keep => exact .drop m hm

/-- A loss leaves the offsets of those alone that drop nothing. -/
theorem Loss.eq_some_iff {drops : Nat → Prop} {a b : Option Nat} (hab : Loss drops a b) {m : Nat}
    (hm : ¬ drops m) : b = some m ↔ a = some m := by
  cases hab with
  | keep => exact Iff.rfl
  | drop m' hm' =>
    constructor
    · intro h; cases h
    · intro h
      obtain rfl : m' = m := Option.some.inj h
      exact absurd hm' hm

/-- Nobody gains by a loss. -/
theorem Loss.eq_some {drops : Nat → Prop} {a b : Option Nat} (hab : Loss drops a b) {m : Nat}
    (h : b = some m) : a = some m := by
  cases hab with
  | keep => exact h
  | drop => cases h

/-- A list of layers stays as it is, if every layer may. -/
theorem forall₂_reassigned_refl {size : Nat} {change : Option Nat → Option Nat → Prop}
    (hrefl : ∀ a, change a a) {layers : List Layer}
    (h : ∀ layer ∈ layers, SpansFrom 0 size layer) :
    List.Forall₂ (Reassigned 0 size change) layers layers :=
  List.forall₂_same.2 fun layer hl => ⟨h layer hl, fun _ => hrefl _⟩

theorem Reassigned.mono {start stop : Nat} {R S : Option Nat → Option Nat → Prop}
    (h : ∀ a b, R a b → S a b) {x y : Layer} (hxy : Reassigned start stop R x y) :
    Reassigned start stop S x y :=
  ⟨hxy.spans, fun o => h _ _ (hxy.owner o)⟩

/-- Two changes of a list of layers, one after the other, make one. -/
theorem forall₂_reassigned_trans {start stop : Nat} {R S T : Option Nat → Option Nat → Prop}
    (h : ∀ {a b c}, R a b → S b c → T a c) {xs ys zs : List Layer}
    (hxy : List.Forall₂ (Reassigned start stop R) xs ys)
    (hyz : List.Forall₂ (Reassigned start stop S) ys zs) :
    List.Forall₂ (Reassigned start stop T) xs zs := by
  induction hxy generalizing zs with
  | nil =>
    cases hyz
    exact .nil
  | cons hab _ ih =>
    cases hyz with
    | cons hbc hrest =>
      exact .cons ⟨hbc.spans, fun o => h (hab.owner o) (hbc.owner o)⟩ (ih hrest)

theorem spans_of_forall₂ {start stop : Nat} {change : Option Nat → Option Nat → Prop}
    {before after : List Layer} (h : List.Forall₂ (Reassigned start stop change) before after) :
    ∀ layer ∈ after, SpansFrom start stop layer := by
  intro layer hl
  induction h with
  | nil => cases hl
  | cons hab _ ih =>
    rcases List.mem_cons.1 hl with rfl | hl
    · exact hab.spans
    · exact ih hl

/-- A member whose offsets are left alone holds as much as before. -/
theorem holding_eq_of_forall₂ {size m : Nat} {change : Option Nat → Option Nat → Prop}
    {before after : List Layer} (hbefore : ∀ layer ∈ before, SpansFrom 0 size layer)
    (h : List.Forall₂ (Reassigned 0 size change) before after)
    (hm : ∀ a b, change a b → (b = some m ↔ a = some m)) :
    holding after m = holding before m := by
  induction h with
  | nil => rfl
  | @cons l l' ls ls' hab _ ih =>
    have hfirst : holding [l'] m = holding [l] m := by
      rw [hab.spans.holding_singleton, (hbefore l (List.mem_cons_self ..)).holding_singleton]
      refine Finset.sum_congr rfl fun o _ => ?_
      simp only [hm _ _ (hab.owner o)]
    rw [holding_cons, holding_cons l, hfirst, ih fun l hl => hbefore l (List.mem_cons_of_mem _ hl)]

/-! ### Releasing -/

theorem releaseFrom_cons (m n : Nat) (s : Span) (rest : Layer) :
    releaseFrom m n (s :: rest) =
      let r := releaseFrom m n rest
      if s.owner = some m ∧ 0 < r.2 then
        if min r.2 s.length = s.length then (⟨s.start, s.length, none⟩ :: r.1, r.2 - s.length)
        else (⟨s.start, s.length - r.2, s.owner⟩ ::
          ⟨s.start + (s.length - r.2), r.2, none⟩ :: r.1, 0)
      else (s :: r.1, r.2) := by
  unfold releaseFrom
  rw [List.foldr_cons]
  dsimp only
  split
  · split
    · rename_i h
      rw [h]
    · rename_i h
      rw [Nat.min_eq_left (by omega), Nat.sub_self]
  · rfl

/-- A stretch of a layer in which the member `m` was to give up `n` offsets, and is left with `left`
of them. -/
structure Released (m start stop n : Nat) (before after : Layer) (left : Nat) : Prop where
  changed : Reassigned start stop (Loss fun m' => m' = m ∧ 0 < n) before after
  left_eq : left = n - holding [before] m
  held : holding [after] m = holding [before] m - n

section Released

variable {m n start stop left : Nat} {s : Span} {rest rest' : Layer}

/-- A span of the member is given up as a whole. -/
theorem Released.cons_whole (h : SpansFrom start stop (s :: rest))
    (hrest : Released m s.stop stop n rest rest' left) (howner : s.owner = some m)
    (hleft : 0 < left) (hle : s.length ≤ left) :
    Released m start stop n (s :: rest) (⟨s.start, s.length, none⟩ :: rest')
      (left - s.length) := by
  have hleft_eq := hrest.left_eq
  have hheld := hrest.held
  refine ⟨⟨⟨h.1, h.2.1, hrest.changed.spans⟩, fun o => ?_⟩, ?_, ?_⟩
  · rw [PlacementRequest.ownerAt?_cons, PlacementRequest.ownerAt?_cons]
    show Loss _ _ (if s.stop ≤ o then _ else _)
    split
    · exact hrest.changed.owner o
    · split
      · rw [howner]
        exact .drop m ⟨rfl, by omega⟩
      · exact .keep _
  · rw [holding_singleton_cons, if_pos howner]
    omega
  · rw [holding_singleton_cons, holding_singleton_cons, if_neg (by simp), if_pos howner]
    omega

/-- A span of the member keeps its front. -/
theorem Released.cons_part (h : SpansFrom start stop (s :: rest))
    (hrest : Released m s.stop stop n rest rest' left) (howner : s.owner = some m)
    (hleft : 0 < left) (hlt : left < s.length) :
    Released m start stop n (s :: rest) (⟨s.start, s.length - left, s.owner⟩ ::
      ⟨s.start + (s.length - left), left, none⟩ :: rest') 0 := by
  have hleft_eq := hrest.left_eq
  have hheld := hrest.held
  have hstop : s.stop = s.start + s.length := rfl
  have hkept : (⟨s.start, s.length - left, s.owner⟩ : Span).stop =
    s.start + (s.length - left) := rfl
  have hfreed : (⟨s.start + (s.length - left), left, none⟩ : Span).stop = s.stop := by
    show s.start + (s.length - left) + left = s.stop
    omega
  refine ⟨⟨⟨h.1, by dsimp only; omega, rfl, hleft, ?_⟩, fun o => ?_⟩, ?_, ?_⟩
  · rw [hfreed]
    exact hrest.changed.spans
  · rw [PlacementRequest.ownerAt?_cons, PlacementRequest.ownerAt?_cons,
      PlacementRequest.ownerAt?_cons, hfreed, hkept]
    dsimp only
    by_cases hend : s.stop ≤ o
    · rw [if_pos hend, if_pos (by omega), if_pos hend]
      exact hrest.changed.owner o
    · rw [if_neg hend, if_neg hend]
      by_cases hfront : s.start + (s.length - left) ≤ o
      · rw [if_pos (show s.start ≤ o by omega), if_pos hfront, if_pos hfront, howner]
        exact .drop m ⟨rfl, by omega⟩
      · rw [if_neg hfront]
        exact .keep _
  · rw [holding_singleton_cons, if_pos howner]
    omega
  · rw [holding_singleton_cons, holding_singleton_cons, holding_singleton_cons, if_pos howner,
      if_neg (by simp), if_pos howner]
    dsimp only
    omega

/-- A span stays that is not the member's, or nothing is left to give up. -/
theorem Released.cons_keep (h : SpansFrom start stop (s :: rest))
    (hrest : Released m s.stop stop n rest rest' left) (hkeep : s.owner = some m → left = 0) :
    Released m start stop n (s :: rest) (s :: rest') left := by
  have hleft_eq := hrest.left_eq
  have hheld := hrest.held
  refine ⟨⟨⟨h.1, h.2.1, hrest.changed.spans⟩, fun o => ?_⟩, ?_, ?_⟩
  · rw [PlacementRequest.ownerAt?_cons, PlacementRequest.ownerAt?_cons]
    split
    · exact hrest.changed.owner o
    · exact .keep _
  · rw [holding_singleton_cons]
    split
    · have := hkeep (by assumption)
      omega
    · omega
  · rw [holding_singleton_cons, holding_singleton_cons]
    split
    · have := hkeep (by assumption)
      omega
    · omega

end Released

/-- A member gives up offsets at the end of a layer, as many as it has to and has. -/
theorem releaseFrom_spec {start stop : Nat} {layer : Layer} (h : SpansFrom start stop layer)
    (m n : Nat) :
    Released m start stop n layer (releaseFrom m n layer).1 (releaseFrom m n layer).2 := by
  induction layer generalizing start with
  | nil => exact ⟨⟨h, fun _ => .keep _⟩, by simp [releaseFrom, holding], by simp [releaseFrom, holding]⟩
  | cons s rest ih =>
    have hrest := ih h.2.2
    rw [releaseFrom_cons]
    generalize releaseFrom m n rest = r at hrest ⊢
    obtain ⟨rest', left⟩ := r
    dsimp only at hrest ⊢
    split
    · rename_i hgive
      split
      · exact hrest.cons_whole h hgive.1 hgive.2 (by omega)
      · exact hrest.cons_part h hgive.1 hgive.2 (by omega)
    · rename_i hkeep
      refine hrest.cons_keep h fun howner => ?_
      by_contra hleft
      exact hkeep ⟨howner, Nat.pos_of_ne_zero hleft⟩

theorem releaseMember_eq_foldr (m n : Nat) (layers : List Layer) :
    releaseMember m n layers = (layers.foldr (fun layer r =>
      ((releaseFrom m r.2 layer).1 :: r.1, (releaseFrom m r.2 layer).2)) ([], n)).1 :=
  rfl

/-- A member gives up offsets in all layers, as many as it has to and has. -/
theorem releaseMember_spec {size : Nat} {layers : List Layer}
    (h : ∀ layer ∈ layers, SpansFrom 0 size layer) (m n : Nat) :
    List.Forall₂ (Reassigned 0 size (Loss fun m' => m' = m ∧ 0 < n)) layers
        (releaseMember m n layers) ∧
      holding (releaseMember m n layers) m = holding layers m - n := by
  rw [releaseMember_eq_foldr]
  suffices hpair : ∀ out, layers.foldr (fun layer r =>
        ((releaseFrom m r.2 layer).1 :: r.1, (releaseFrom m r.2 layer).2)) ([], n) = out →
      List.Forall₂ (Reassigned 0 size (Loss fun m' => m' = m ∧ 0 < n)) layers out.1 ∧
        out.2 = n - holding layers m ∧ holding out.1 m = holding layers m - n from
    ⟨(hpair _ rfl).1, (hpair _ rfl).2.2⟩
  induction layers with
  | nil =>
    rintro out rfl
    exact ⟨.nil, by simp [holding], by simp [holding]⟩
  | cons layer layers ih =>
    rintro out rfl
    rw [List.foldr_cons]
    generalize hrest : layers.foldr _ ([], n) = rest
    obtain ⟨hchanged, hleft, hheld⟩ := ih (fun l hl => h l (List.mem_cons_of_mem _ hl)) rest hrest
    obtain ⟨hone, hleft', hholding⟩ := releaseFrom_spec (h layer (List.mem_cons_self ..)) m rest.2
    refine ⟨.cons (hone.mono fun a b => Loss.mono fun m' hm' => ⟨hm'.1, by omega⟩) hchanged, ?_, ?_⟩
    · rw [hleft', holding_cons layer layers]
      omega
    · rw [holding_cons, hholding, hheld, holding_cons layer layers]
      omega

/-- Members release one after the other; nobody's turn changes what another one holds. -/
theorem foldl_releaseMember_spec {size : Nat} {pairs : List (Nat × Nat)}
    (hnodup : (pairs.map Prod.snd).Nodup) {layers : List Layer}
    (h : ∀ layer ∈ layers, SpansFrom 0 size layer) :
    let after := pairs.foldl (fun layers pair =>
      releaseMember pair.2 (holding layers pair.2 - pair.1) layers) layers
    List.Forall₂ (Reassigned 0 size
        (Loss fun m => ∃ quota, (quota, m) ∈ pairs ∧ quota < holding layers m)) layers after ∧
      ∀ m quota, (quota, m) ∈ pairs → holding after m = min (holding layers m) quota := by
  induction pairs generalizing layers with
  | nil => exact ⟨forall₂_reassigned_refl .keep h, fun m quota hm => by cases hm⟩
  | cons pair pairs ih =>
    obtain ⟨quota, m⟩ := pair
    rw [List.map_cons, List.nodup_cons] at hnodup
    obtain ⟨hchanged, hheld⟩ := releaseMember_spec h m (holding layers m - quota)
    have hspans := spans_of_forall₂ hchanged
    have hothers : ∀ m', m' ≠ m →
        holding (releaseMember m (holding layers m - quota) layers) m' = holding layers m' :=
      fun m' hm' => holding_eq_of_forall₂ h hchanged fun a b hab =>
        hab.eq_some_iff fun hdrop => hm' hdrop.1
    obtain ⟨hrest, hrestheld⟩ := ih hnodup.2 hspans
    have hlater : ∀ {quota' m'}, (quota', m') ∈ pairs → m' ≠ m := by
      rintro quota' m' hmem rfl
      exact hnodup.1 (List.mem_map.2 ⟨_, hmem, rfl⟩)
    refine ⟨forall₂_reassigned_trans (fun hab hbc => ?_) hchanged hrest, ?_⟩
    · refine (hab.mono ?_).trans (hbc.mono ?_)
      · rintro m' ⟨rfl, hlt⟩
        exact ⟨quota, List.mem_cons_self .., by omega⟩
      · rintro m' ⟨quota', hmem, hlt⟩
        rw [hothers m' (hlater hmem)] at hlt
        exact ⟨quota', List.mem_cons_of_mem _ hmem, hlt⟩
    · intro m' quota' hmem
      rcases List.mem_cons.1 hmem with heq | hmem
      · obtain ⟨rfl, rfl⟩ := Prod.mk.inj heq
        -- Later members leave this one alone.
        have hsame := holding_eq_of_forall₂ (m := m') hspans hrest fun a b hab =>
          hab.eq_some_iff fun ⟨_, hmem, _⟩ => hlater hmem rfl
        rw [List.foldl_cons, hsame, hheld]
        omega
      · rw [List.foldl_cons, hrestheld m' quota' hmem, hothers m' (hlater hmem)]

/-- After the release, every member holds what it held up to its quota, and only members above their
quota have lost offsets. -/
theorem release_spec {size : Nat} {layers : List Layer}
    (h : ∀ layer ∈ layers, SpansFrom 0 size layer) (quotas : List Nat) :
    List.Forall₂ (Reassigned 0 size
        (Loss fun m => ∃ quota, quotas[m]? = some quota ∧ quota < holding layers m)) layers
        (release quotas layers) ∧
      ∀ m quota, quotas[m]? = some quota →
        holding (release quotas layers) m = min (holding layers m) quota := by
  have hnodup : (quotas.zipIdx.map Prod.snd).Nodup := by
    rw [List.zipIdx_map_snd]
    exact List.nodup_range' ..
  have hall := foldl_releaseMember_spec hnodup h
  simp only [List.mk_mem_zipIdx_iff_getElem?] at hall
  exact hall

end ReplicaRing.Layer
