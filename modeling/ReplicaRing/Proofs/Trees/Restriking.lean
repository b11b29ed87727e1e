import ReplicaRing.Proofs.Trees.Striking

/-!
# Striking in two steps

Nodes may be excluded all at once or in two steps, and the ring that is left is the same
(`Ring.without?_union`), though the neighbours that are merged after the first step are not those
that are merged at once. For a struck ring is determined by the owners that it gives to each
coordinate (`Ring.without?_eq_ok_iff`), and striking from a list of owners composes
(`Exclusions.filter_filter`). As each ring of a tree is struck on its own, the same is true of a
tree but for the time at which it was made (`Tree.without?_union`).
-/

namespace ReplicaRing

variable {E F : Exclusions}

/-! ### Exclusions of two lists -/

namespace Exclusions

theorem excludes_union (E F : Exclusions) (id : NodeId) :
    (E.union F).excludes id = (E.excludes id || F.excludes id) :=
  Std.ExtTreeSet.contains_union

/-- What is struck in two steps is what is struck at once. -/
theorem filter_filter (E F : Exclusions) (ids : List NodeId) :
    F.filter (E.filter ids) = (E.union F).filter ids := by
  unfold filter
  rw [List.filter_filter]
  refine List.filter_congr fun id _ => ?_
  rw [excludes_union, Bool.not_or, Bool.and_comm]

theorem filterOwners_filterOwners (E F : Exclusions) (o : Owners) :
    F.filterOwners (E.filterOwners o) = (E.union F).filterOwners o :=
  congrArg₂ Owners.mk (E.filter_filter F o.primary) (E.filter_filter F o.secondary)

theorem excludes_of_mem_filterOwners {o : Owners} {id : NodeId}
    (h : id ∈ (E.filterOwners o).every) : E.excludes id = false := by
  unfold filterOwners at h
  rw [Owners.filter_every] at h
  simpa using (List.mem_filter.1 h).2

end Exclusions

/-! ### Rings -/

namespace Ring

variable {r r' : Ring}

/-- Every entry keeps a primary owner if every coordinate does. -/
theorem keepsPrimaries_iff : (∀ e ∈ r.entries.toList, E.filter e.owners.primary ≠ []) ↔
    ∀ c ∈ r.region, E.filter (r.ownersAt c .primary) ≠ [] := by
  constructor
  · intro h c hc
    obtain ⟨e, he, -, howners⟩ := r.exists_entry hc
    rw [r.ownersAt_of_valueAt? howners, Owners.inMode_primary]
    exact h e he
  · intro h e he
    -- An entry has the owners of its first coordinate.
    have hmem : e.region.first ∈ e.region := ⟨Nat.le_refl _, e.region.first_le_last⟩
    have hbounds := r.tiles.bounds he
    have hfirst := h e.region.first ⟨hbounds.1, Nat.le_trans hmem.2 hbounds.2⟩
    rwa [r.ownersAt_of_valueAt? (r.tiles.valueAt?_of_mem he hmem), Owners.inMode_primary] at hfirst

theorem parts_of_without? (h : r.without? E = .ok r') :
    r'.parts = { r.parts with entries := r'.entries.toList } := by
  obtain ⟨struck, -, hr'⟩ := bind_eq_ok.1 h
  exact parts_of_ofEntries? hr'

/-- Striking succeeds if every coordinate keeps a primary owner, and the struck ring is the one that
gives each coordinate the owners that are left. -/
theorem without?_eq_ok_iff : r.without? E = .ok r' ↔
    (∀ c ∈ r.region, E.filter (r.ownersAt c .primary) ≠ []) ∧
      r'.parts = { r.parts with entries := r'.entries.toList } ∧
      ∀ c, Run.valueAt? r'.entries.toList c =
        (Run.valueAt? r.entries.toList c).map E.filterOwners := by
  constructor
  · intro h
    obtain ⟨hkept, -, hvalue⟩ := of_without? h
    exact ⟨keepsPrimaries_iff.1 hkept, parts_of_without? h, hvalue⟩
  · rintro ⟨hkept, hparts, hvalue⟩
    obtain ⟨struck, hstruck, hregion, hsame⟩ := exists_without? (keepsPrimaries_iff.2 hkept)
    rw [hstruck]
    refine congrArg Except.ok (eq_of_parts ?_)
    have hregion' : struck.region = r'.region :=
      hregion.trans (congrArg Parts.region hparts).symm
    have hentries := entries_eq_of_valueAt? hregion' fun c _ => by rw [hsame, hvalue]
    rw [parts_of_without? hstruck, hparts, hentries]

theorem ownersAt_of_without? (h : r.without? E = .ok r') (c : Nat) (mode : QueryMode) :
    r'.ownersAt c mode = E.filter (r.ownersAt c mode) := by
  obtain ⟨-, -, hvalue⟩ := without?_eq_ok_iff.1 h
  rw [ownersAt_eq, ownersAt_eq, hvalue]
  cases Run.valueAt? r.entries.toList c with
  | none => rfl
  | some o => exact E.inMode_filterOwners o mode

theorem excludes_of_without? (h : r.without? E = .ok r') {e : Entry} (he : e ∈ r'.entries.toList)
    {id : NodeId} (hid : id ∈ e.owners.every) : E.excludes id = false := by
  obtain ⟨-, -, hvalue⟩ := without?_eq_ok_iff.1 h
  have hfirst := r'.tiles.valueAt?_of_mem he (c := e.region.first)
    ⟨Nat.le_refl _, e.region.first_le_last⟩
  rw [hvalue, Option.map_eq_some_iff] at hfirst
  obtain ⟨o, -, ho⟩ := hfirst
  refine Exclusions.excludes_of_mem_filterOwners (o := o) ?_
  rw [ho]
  exact hid

/-- Striking fails exactly if some coordinate has no primary owner but excluded ones. -/
theorem without?_eq_error_iff : (∃ defect, r.without? E = .error defect) ↔
    ∃ c ∈ r.region, ∀ id ∈ r.ownersAt c .primary, E.excludes id = true := by
  constructor
  · rintro ⟨defect, hdefect⟩
    by_contra hnone
    have hkept : ∀ c ∈ r.region, E.filter (r.ownersAt c .primary) ≠ [] := fun c hc hempty =>
      hnone ⟨c, hc, Exclusions.filter_eq_nil_iff.1 hempty⟩
    obtain ⟨r', hr', -⟩ := exists_without? (keepsPrimaries_iff.2 hkept)
    rw [hr'] at hdefect
    cases hdefect
  · rintro ⟨c, hc, hall⟩
    cases hstrike : r.without? E with
    | error defect => exact ⟨defect, rfl⟩
    | ok r' =>
      have hkept := (without?_eq_ok_iff.1 hstrike).1 c hc
      exact absurd (Exclusions.filter_eq_nil_iff.2 hall) hkept

/-- Striking two lists of nodes at once is striking the one and then the other. -/
theorem without?_union (r r' : Ring) (E F : Exclusions) : r.without? (E.union F) = .ok r' ↔
    ∃ r₁, r.without? E = .ok r₁ ∧ r₁.without? F = .ok r' := by
  constructor
  · intro h
    obtain ⟨hkept, hparts, hvalue⟩ := without?_eq_ok_iff.1 h
    obtain ⟨r₁, hr₁, hregion₁, hvalue₁⟩ := exists_without? (r := r) (E := E)
      (keepsPrimaries_iff.2 fun c hc hempty => hkept c hc (by
        rw [← Exclusions.filter_filter, hempty]
        rfl))
    refine ⟨r₁, hr₁, without?_eq_ok_iff.2 ⟨fun c hc => ?_, ?_, fun c => ?_⟩⟩
    · rw [ownersAt_of_without? hr₁, Exclusions.filter_filter]
      exact hkept c (hregion₁ ▸ hc)
    · rw [hparts, parts_of_without? hr₁]
    · rw [hvalue, hvalue₁, Option.map_map]
      exact congrArg (Option.map · _) (funext fun o => (E.filterOwners_filterOwners F o).symm)
  · rintro ⟨r₁, hr₁, hr'⟩
    obtain ⟨-, hparts₁, hvalue₁⟩ := without?_eq_ok_iff.1 hr₁
    obtain ⟨hkept, hparts, hvalue⟩ := without?_eq_ok_iff.1 hr'
    have hregion : r₁.region = r.region := congrArg Parts.region hparts₁
    refine without?_eq_ok_iff.2 ⟨fun c hc => ?_, ?_, fun c => ?_⟩
    · rw [← Exclusions.filter_filter, ← ownersAt_of_without? hr₁]
      exact hkept c (hregion ▸ hc)
    · rw [hparts, hparts₁]
    · rw [hvalue, hvalue₁, Option.map_map]
      exact congrArg (Option.map · _) (funext fun o => E.filterOwners_filterOwners F o)

end Ring

/-! ### Trees -/

namespace Tree

variable {t t' : Tree} {created : UInt64}

/-- If every ring can be struck, so can the tree. -/
theorem exists_without? (created : UInt64)
    (h : ∀ id ring, t.ring? id = some ring → ∃ ring', ring.without? E = .ok ring') :
    ∃ t', t.without? E created = .ok t' := by
  cases hstrike : t.without? E created with
  | ok t' => exact ⟨t', rfl⟩
  | error defect =>
    obtain ⟨id, ring, hring, e, he, hall⟩ := without?_eq_error_iff.1 ⟨defect, hstrike⟩
    obtain ⟨ring', hring'⟩ := h id ring hring
    exact absurd (Exclusions.filter_eq_nil_iff.2 hall) ((Ring.of_without? hring').1 e he)

/-- Trees with the same rings for their nodes differ only in what else they record. -/
theorem eq_of_ring? (htopology : t'.topology = t.topology) (hparent : t'.parent = t.parent)
    (hrings : ∀ id, t'.ring? id = t.ring? id) (hversion : t'.version = t.version)
    (hcreated : t'.created = t.created) (hregion : t'.region = t.region) : t' = t := by
  obtain ⟨topology, parent, rings, version, _, region⟩ := t
  obtain ⟨topology', parent', rings', version', _, region'⟩ := t'
  obtain rfl : rings' = rings := Std.ExtTreeMap.ext_getElem? fun id => hrings id
  simp_all

theorem Struck.ring?_eq_some_iff (h : t.Struck E t') {id : NodeId} {ring' : Ring} :
    t'.ring? id = some ring' ↔ ∃ ring, t.ring? id = some ring ∧ ring.without? E = .ok ring' := by
  refine ⟨h.rings id ring', ?_⟩
  rintro ⟨ring, hring, hstripped⟩
  obtain ⟨ring₀, hring₀, hstripped₀⟩ := h.struck id ring hring
  obtain rfl := Except.ok.inj (hstripped.symm.trans hstripped₀)
  exact hring₀

/-- A struck tree has all its rings struck and keeps everything else but the time. -/
theorem without?_eq_ok_iff : t.without? E created = .ok t' ↔
    t.Struck E t' ∧ t'.version = t.version ∧ t'.created = created := by
  have hkeeps : ∀ {struck : Tree}, t.without? E created = .ok struck →
      t.Struck E struck ∧ struck.version = t.version ∧ struck.created = created := by
    intro struck h
    refine ⟨struck_of_without? h, ?_⟩
    obtain ⟨rings, -, hstruck⟩ := bind_eq_ok.1 h
    obtain rfl := Except.ok.inj hstruck
    exact ⟨rfl, rfl⟩
  refine ⟨hkeeps, ?_⟩
  rintro ⟨hstruck, hversion, hcreated⟩
  obtain ⟨t₀, ht₀⟩ := exists_without? created fun id ring hring => by
    obtain ⟨ring', -, hring'⟩ := hstruck.struck id ring hring
    exact ⟨ring', hring'⟩
  obtain ⟨hstruck₀, hversion₀, hcreated₀⟩ := hkeeps ht₀
  have hrings : ∀ id, t₀.ring? id = t'.ring? id := fun id => Option.ext fun ring => by
    rw [hstruck₀.ring?_eq_some_iff, hstruck.ring?_eq_some_iff]
  rw [ht₀, eq_of_ring? (hstruck₀.topology.trans hstruck.topology.symm)
    (hstruck₀.parent.trans hstruck.parent.symm) hrings (hversion₀.trans hversion.symm)
    (hcreated₀.trans hcreated.symm) (hstruck₀.region.trans hstruck.region.symm)]

namespace Struck

variable {t₁ : Tree}

/-- When a tree was made does not matter for its rings. -/
theorem madeAt (h : t.Struck E t') (created : UInt64) : t.Struck E { t' with created } :=
  ⟨h.topology, h.parent, h.region, h.struck, h.rings⟩

theorem trans (h : t.Struck E t₁) (h' : t₁.Struck F t') : t.Struck (E.union F) t' where
  topology := h'.topology.trans h.topology
  parent := h'.parent.trans h.parent
  region := h'.region.trans h.region
  struck id ring hring := by
    obtain ⟨ring₁, hring₁, hfirst⟩ := h.struck id ring hring
    obtain ⟨ring', hring', hsecond⟩ := h'.struck id ring₁ hring₁
    exact ⟨ring', hring', (ring.without?_union ring' E F).2 ⟨ring₁, hfirst, hsecond⟩⟩
  rings id ring' hring' := by
    obtain ⟨ring₁, hring₁, hsecond⟩ := h'.rings id ring' hring'
    obtain ⟨ring, hring, hfirst⟩ := h.rings id ring₁ hring₁
    exact ⟨ring, hring, (ring.without?_union ring' E F).2 ⟨ring₁, hfirst, hsecond⟩⟩

/-- What is left to strike once the first nodes are struck. -/
theorem second (h : t.Struck (E.union F) t') (hfirst : t.Struck E t₁) : t₁.Struck F t' := by
  have hstep : ∀ {id ring ring₁}, t.ring? id = some ring → ring.without? E = .ok ring₁ →
      ∃ ring', t'.ring? id = some ring' ∧ ring₁.without? F = .ok ring' := by
    intro id ring ring₁ hring hring₁
    obtain ⟨ring', hring', hboth⟩ := h.struck id ring hring
    obtain ⟨ring₀, hring₀, hsecond⟩ := (ring.without?_union ring' E F).1 hboth
    obtain rfl := Except.ok.inj (hring₁.symm.trans hring₀)
    exact ⟨ring', hring', hsecond⟩
  refine ⟨h.topology.trans hfirst.topology.symm, h.parent.trans hfirst.parent.symm,
    h.region.trans hfirst.region.symm, fun id ring₁ hring₁ => ?_, fun id ring' hring' => ?_⟩
  · obtain ⟨ring, hring, hstripped⟩ := hfirst.rings id ring₁ hring₁
    exact hstep hring hstripped
  · obtain ⟨ring, hring, -⟩ := h.rings id ring' hring'
    obtain ⟨ring₁, hring₁, hstripped⟩ := hfirst.struck id ring hring
    obtain ⟨ring₀, hring₀, hsecond⟩ := hstep hring hstripped
    obtain rfl := Option.some.inj (hring'.symm.trans hring₀)
    exact ⟨ring₁, hring₁, hsecond⟩

end Struck

/-- Striking two lists of nodes from a tree at once is striking the one and then the other; only the
time at which the tree was made may differ. -/
theorem without?_union (t t' : Tree) (E F : Exclusions) (created created₁ created₂ : UInt64) :
    t.without? (E.union F) created = .ok t' ↔ ∃ t₁ t₂, t.without? E created₁ = .ok t₁ ∧
      t₁.without? F created₂ = .ok t₂ ∧ t' = { t₂ with created } := by
  constructor
  · intro h
    obtain ⟨hstruck, hversion, hcreated⟩ := without?_eq_ok_iff.1 h
    obtain ⟨t₁, ht₁⟩ := exists_without? created₁ fun id ring hring => by
      obtain ⟨ring', -, hboth⟩ := hstruck.struck id ring hring
      obtain ⟨ring₁, hring₁, -⟩ := (ring.without?_union ring' E F).1 hboth
      exact ⟨ring₁, hring₁⟩
    obtain ⟨hfirst, hversion₁, -⟩ := without?_eq_ok_iff.1 ht₁
    refine ⟨t₁, { t' with created := created₂ }, ht₁, without?_eq_ok_iff.2
      ⟨(hstruck.second hfirst).madeAt created₂, hversion.trans hversion₁.symm, rfl⟩, ?_⟩
    rw [← hcreated]
  · rintro ⟨t₁, t₂, ht₁, ht₂, rfl⟩
    obtain ⟨hfirst, hversion₁, -⟩ := without?_eq_ok_iff.1 ht₁
    obtain ⟨hsecond, hversion₂, -⟩ := without?_eq_ok_iff.1 ht₂
    exact without?_eq_ok_iff.2
      ⟨(hfirst.trans hsecond).madeAt created, hversion₂.trans hversion₁, rfl⟩

end Tree

/-! ### Striking composes -/

/-- A ring without the nodes of two lists is the ring without those of the first list, without those
of the second; the one can be made exactly if the other can. A ring that was struck gives each
coordinate the owners that it had, in their order, without the excluded ones, names no excluded
node, and is otherwise the same ring; there is none exactly if some coordinate had no other primary
owner. Striking from trees composes as well, but for the times at which they are made. -/
theorem Exclusions.striking_composes (E F : Exclusions) :
    (∀ r r' : Ring, r.without? (E.union F) = .ok r' ↔
      ∃ r₁, r.without? E = .ok r₁ ∧ r₁.without? F = .ok r') ∧
    (∀ r : Ring, (∃ defect, r.without? E = .error defect) ↔
      ∃ c ∈ r.region, ∀ id ∈ r.ownersAt c .primary, E.excludes id = true) ∧
    (∀ r r' : Ring, r.without? E = .ok r' →
      (∀ c mode, r'.ownersAt c mode = (r.ownersAt c mode).filter fun id => !E.excludes id) ∧
      (∀ e ∈ r'.entries.toList, ∀ id ∈ e.owners.every, E.excludes id = false) ∧
      r'.parts = { r.parts with entries := r'.entries.toList }) ∧
    ∀ (t t' : Tree) (created created₁ created₂ : UInt64),
      t.without? (E.union F) created = .ok t' ↔ ∃ t₁ t₂, t.without? E created₁ = .ok t₁ ∧
        t₁.without? F created₂ = .ok t₂ ∧ t' = { t₂ with created } :=
  ⟨fun r r' => r.without?_union r' E F, fun _ => Ring.without?_eq_error_iff,
    fun _ _ h => ⟨Ring.ownersAt_of_without? h, fun _ he _ => Ring.excludes_of_without? h he,
      Ring.parts_of_without? h⟩,
    fun t t' => t.without?_union t' E F⟩

/-- Two parts of the whole space, with the same owners but for two nodes. -/
def sharedParts : List Entry :=
  [⟨⟨0, 99, by decide, by decide⟩, ["a", "b"], ["c"]⟩,
    ⟨⟨100, Region.whole.last, by decide, by decide⟩, ["b", "c"], []⟩]

/-- Without the first node there are still two parts, without both there is one. -/
theorem Exclusions.striking_composes_sharedParts :
    ∃ r r₁ r', Ring.ofEntries? "root" "standard" Region.whole 1 1 0.5 sharedParts = .ok r ∧
      r.without? (.ofList ["a"]) = .ok r₁ ∧ r₁.entries.size = 2 ∧
      r₁.without? (.ofList ["c"]) = .ok r' ∧ r'.entries.size = 1 ∧
      r.without? ((Exclusions.ofList ["a"]).union (.ofList ["c"])) = .ok r' ∧
      r₁.ownersAt 0 .all = ["b", "c"] ∧
      ∃ defect, r₁.without? (.ofList ["b"]) = .error defect := by
  have htest : ((Ring.ofEntries? "root" "standard" Region.whole 1 1 0.5 sharedParts).toOption.any
      fun r => r.ownersAt 0 .all = ["a", "b", "c"] ∧ (r.without? (.ofList ["a"])).toOption.any
      fun r₁ => r₁.entries.size = 2 ∧ r₁.ownersAt 0 .primary = ["b"] ∧
        (r₁.without? (.ofList ["c"])).toOption.any fun r' => r'.entries.size = 1) = true := by
    decide +kernel
  obtain ⟨r, hr, hsteps⟩ := (Option.any_eq_true _ _).1 htest
  obtain ⟨howners, hsteps⟩ := of_decide_eq_true hsteps
  obtain ⟨r₁, hr₁, hsteps⟩ := (Option.any_eq_true _ _).1 hsteps
  obtain ⟨hsize₁, hprimary, hsteps⟩ := of_decide_eq_true hsteps
  obtain ⟨r', hr', hsize⟩ := (Option.any_eq_true _ _).1 hsteps
  rw [toOption_eq_some] at hr hr₁ hr'
  obtain ⟨hunion, -, hstruck, -⟩ := striking_composes (.ofList ["a"]) (.ofList ["c"])
  obtain ⟨-, hfails, -⟩ := striking_composes (.ofList ["b"]) (.ofList ["c"])
  refine ⟨r, r₁, r', hr, hr₁, hsize₁, hr', of_decide_eq_true hsize, (hunion r r').2 ⟨r₁, hr₁, hr'⟩,
    ?_, (hfails r₁).2 ⟨0, ?_, ?_⟩⟩
  · rw [(hstruck r r₁ hr₁).1, howners]
    decide +kernel
  · by_contra hout
    rw [Ring.ownersAt_eq, r₁.valueAt?_eq_none hout] at hprimary
    cases hprimary
  · rw [hprimary]
    decide +kernel

end ReplicaRing
