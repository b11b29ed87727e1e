import Mathlib.Data.List.Forall2

/-!
# Results that may be errors

A computation in steps succeeds exactly if its steps do (`bind_eq_ok`, `map_eq_ok`,
`mapError_eq_ok`), and a list of computations if each of them does (`exists_map_of_mapM_eq_ok`,
`forall₂_of_mapM_eq_ok`, `mapM_eq_ok_map`, `mapM_mapM_eq_ok_iff`, `forM_eq_ok_iff`).
-/

namespace ReplicaRing

variable {ε ε' α β : Type}

theorem bind_eq_ok {x : Except ε α} {f : α → Except ε β} {b : β} :
    (x >>= f) = .ok b ↔ ∃ a, x = .ok a ∧ f a = .ok b := by
  cases x <;> simp [bind, Except.bind]

theorem map_eq_ok {x : Except ε α} {f : α → β} {b : β} :
    x.map f = .ok b ↔ ∃ a, x = .ok a ∧ f a = b := by
  cases x <;> simp [Except.map]

/-- Rewording errors neither adds nor removes a success. -/
theorem mapError_eq_ok {x : Except ε α} {f : ε → ε'} {a : α} :
    x.mapError f = .ok a ↔ x = .ok a := by
  cases x <;> simp [Except.mapError]

theorem mapError_eq_error {x : Except ε α} {f : ε → ε'} {e' : ε'} :
    x.mapError f = .error e' ↔ ∃ e, x = .error e ∧ f e = e' := by
  cases x <;> simp [Except.mapError]

theorem toOption_eq_some {x : Except ε α} {a : α} : x.toOption = some a ↔ x = .ok a := by
  cases x <;> simp [Except.toOption]

theorem forall₂_of_mapM_eq_ok {f : α → Except ε β} {xs : List α} {ys : List β}
    (h : xs.mapM f = .ok ys) : List.Forall₂ (fun x y => f x = .ok y) xs ys := by
  induction xs generalizing ys with
  | nil =>
    obtain rfl := Except.ok.inj h
    exact List.Forall₂.nil
  | cons x xs ih =>
    rw [List.mapM_cons] at h
    obtain ⟨y, hx, h⟩ := bind_eq_ok.1 h
    obtain ⟨rest, hxs, h⟩ := bind_eq_ok.1 h
    obtain rfl := Except.ok.inj h
    exact List.Forall₂.cons hx (ih hxs)

/-- A list is mapped element by element, if no element fails. -/
theorem exists_map_of_mapM_eq_ok [Inhabited β] {f : α → Except ε β} {xs : List α} {ys : List β}
    (h : xs.mapM f = .ok ys) : ∃ g : α → β, ys = xs.map g ∧ ∀ x ∈ xs, f x = .ok (g x) := by
  refine ⟨fun x => (f x).toOption.getD default, ?_⟩
  have hresults := forall₂_of_mapM_eq_ok h
  clear h
  induction hresults with
  | nil => exact ⟨rfl, fun x hx => absurd hx List.not_mem_nil⟩
  | @cons x y xs ys hx _ ih =>
    obtain ⟨hrest, hall⟩ := ih
    have hy : (f x).toOption.getD default = y := by
      rw [hx]
      rfl
    refine ⟨?_, List.forall_mem_cons.2 ⟨?_, hall⟩⟩
    · rw [List.map_cons, hy, ← hrest]
    · exact hx.trans (congrArg Except.ok hy.symm)

theorem mapM_eq_ok_map {f : α → Except ε β} {g : α → β} {xs : List α}
    (h : ∀ x ∈ xs, f x = .ok (g x)) : xs.mapM f = .ok (xs.map g) := by
  induction xs with
  | nil => rfl
  | cons x xs ih =>
    rw [List.mapM_cons, h x (List.mem_cons_self ..), ih fun x hx => h x (List.mem_cons_of_mem _ hx)]
    rfl

theorem exists_mapM_eq_ok {f : α → Except ε β} {xs : List α} (h : ∀ x ∈ xs, ∃ y, f x = .ok y) :
    ∃ ys, xs.mapM f = .ok ys := by
  induction xs with
  | nil => exact ⟨[], rfl⟩
  | cons x xs ih =>
    obtain ⟨y, hy⟩ := h x (List.mem_cons_self ..)
    obtain ⟨ys, hys⟩ := ih fun x hx => h x (List.mem_cons_of_mem _ hx)
    exact ⟨y :: ys, by rw [List.mapM_cons, hy, hys]; rfl⟩

/-- Two lists that are mapped by one function give a result exactly if no element of either fails. -/
theorem mapM_mapM_eq_ok_iff [Inhabited β] {γ : Type} {f : α → Except ε β}
    {g : List β → List β → γ} {xs ys : List α} {r : γ} :
    (do return g (← xs.mapM f) (← ys.mapM f)) = Except.ok r ↔
      ∃ value : α → β, (∀ z ∈ xs ++ ys, f z = .ok (value z)) ∧
        r = g (xs.map value) (ys.map value) := by
  constructor
  · intro h
    obtain ⟨us, hx, h⟩ := bind_eq_ok.1 h
    obtain ⟨vs, hy, h⟩ := bind_eq_ok.1 h
    obtain rfl := Except.ok.inj h
    -- The two lists are mapped as one, whose results are then cut where the first list ends.
    have hboth : (xs ++ ys).mapM f = .ok (us ++ vs) := by
      rw [List.mapM_append, hx, hy]
      rfl
    obtain ⟨value, hmap, hvalue⟩ := exists_map_of_mapM_eq_ok hboth
    rw [List.map_append] at hmap
    have hlength : us.length = (xs.map value).length := by
      rw [List.length_map, (forall₂_of_mapM_eq_ok hx).length_eq]
    obtain ⟨rfl, rfl⟩ := List.append_inj hmap hlength
    exact ⟨value, hvalue, rfl⟩
  · rintro ⟨value, hvalue, rfl⟩
    rw [mapM_eq_ok_map fun x hx => hvalue x (List.mem_append_left _ hx),
      mapM_eq_ok_map fun y hy => hvalue y (List.mem_append_right _ hy)]
    rfl

/-- The results are those of the elements. -/
theorem mem_iff_of_mapM_eq_ok {f : α → Except ε β} {xs : List α} {ys : List β}
    (h : xs.mapM f = .ok ys) {y : β} : y ∈ ys ↔ ∃ x ∈ xs, f x = .ok y := by
  have hresults := forall₂_of_mapM_eq_ok h
  clear h
  induction hresults with
  | nil => simp
  | @cons x z xs ys hx _ ih =>
    have hrest : y ∈ ys ↔ ∃ x ∈ xs, f x = .ok y := ih
    rw [List.mem_cons, hrest, List.exists_mem_cons_iff, hx, Except.ok.injEq, eq_comm]

/-- Checks of a list pass if each of them does. -/
theorem forM_eq_ok_iff {f : α → Except ε Unit} {xs : List α} :
    xs.forM f = .ok () ↔ ∀ x ∈ xs, f x = .ok () := by
  induction xs with
  | nil => exact ⟨fun _ _ h => absurd h List.not_mem_nil, fun _ => rfl⟩
  | cons x xs ih =>
    have hcons : (x :: xs).forM f = f x >>= fun _ => xs.forM f := rfl
    rw [hcons, bind_eq_ok, List.forall_mem_cons, ← ih]
    constructor
    · rintro ⟨⟨⟩, hx, hxs⟩
      exact ⟨hx, hxs⟩
    · rintro ⟨hx, hxs⟩
      exact ⟨(), hx, hxs⟩

/-- What is read back element by element is read back as a list. -/
theorem mapM_map_eq_some {write : α → β} {read : β → Option α} {xs : List α}
    (h : ∀ x ∈ xs, read (write x) = some x) : (xs.map write).mapM read = some xs := by
  induction xs with
  | nil => rfl
  | cons x xs ih =>
    obtain ⟨hx, hxs⟩ := List.forall_mem_cons.1 h
    simp [hx, ih hxs]

end ReplicaRing
