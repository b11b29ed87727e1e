import ReplicaRing.Proofs.Results
import ReplicaRing.VersionIssuer

/-!
# Versions grow for each key

`versions_increase`: after any calls, a further call gets a version exactly if none of its keys
holds the greatest one, and the version is one above the highest that its keys have reached, an
unseen key counting as one below the initial version. All of its keys then hold the version. A call
that is refused leaves the issuer as it was. So of two calls that share a key the later one gets the
greater version, however many calls come between them.

Levels are integers: the initial version may be 0, and an unseen key is then at -1. What carries the
induction over the calls is that no key is below the initial version (`Grounded`).
-/

namespace ReplicaRing

namespace VersionIssuer

variable {κ : Type} [DecidableEq κ]

/-! ### What an issuer holds for a key -/

/-- No version is above this one. -/
def greatest : UInt64 :=
  UInt64.ofNat (UInt64.size - 1)

/-- Where a key is that was never seen. -/
def floor (c : VersionIssuer κ) : Int :=
  c.initial.toNat - 1

/-- The version that a key holds, as a number. -/
def level (c : VersionIssuer κ) (key : κ) : Int :=
  match c.current? key with
  | none => c.floor
  | some v => v.toNat

/-- The highest level of some keys. -/
def highest (c : VersionIssuer κ) (keys : List κ) : Int :=
  (keys.map c.level).foldr max c.floor

/-- The issuer after some calls. -/
def after (c : VersionIssuer κ) (calls : List (List κ)) : VersionIssuer κ :=
  calls.foldl (fun c keys => (c.call keys).2) c

theorem eq_greatest_iff {v : UInt64} : v = greatest ↔ ¬ v.toNat + 1 < UInt64.size := by
  have hv := v.toNat_lt_size
  have hsize : greatest.toNat = UInt64.size - 1 := by decide
  rw [← UInt64.toNat_inj, hsize]
  omega

theorem current?_record (c : VersionIssuer κ) (v : UInt64) (key other : κ) :
    (c.record v key).current? other = if other = key then some v else c.current? other := by
  by_cases h : other = key
  · simp [current?, record, h]
  · have hne : key ≠ other := Ne.symm h
    have hsame (entry : κ × UInt64) :
        (!decide (entry.1 = key) && decide (entry.1 = other)) = decide (entry.1 = other) := by
      by_cases hentry : entry.1 = other <;> simp [hentry, h]
    simp [current?, record, h, hne, List.find?_filter, hsame]

theorem foldl_record_initial (c : VersionIssuer κ) (v : UInt64) (keys : List κ) :
    (keys.foldl (fun c key => c.record v key) c).initial = c.initial := by
  induction keys generalizing c with
  | nil => rfl
  | cons key keys ih => exact ih (c.record v key)

theorem current?_foldl_record (c : VersionIssuer κ) (v : UInt64) (keys : List κ) (key : κ) :
    (keys.foldl (fun c key => c.record v key) c).current? key =
      if key ∈ keys then some v else c.current? key := by
  induction keys generalizing c with
  | nil => simp
  | cons first keys ih =>
    rw [List.foldl_cons, ih, current?_record]
    by_cases hkeys : key ∈ keys <;> by_cases hfirst : key = first <;> simp [hkeys, hfirst]

/-! ### The version of a call -/

/-- A key has a next version unless it holds the greatest one. -/
theorem candidate_eq_ok {c : VersionIssuer κ} {key : κ} {v : UInt64} :
    c.candidate key = .ok v ↔
      c.current? key ≠ some greatest ∧ (v.toNat : Int) = c.level key + 1 := by
  rw [candidate, level]
  cases c.current? key with
  | none =>
    simp only [floor, Except.ok.injEq, ← UInt64.toNat_inj]
    simp
    omega
  | some w =>
    by_cases hroom : w.toNat + 1 < UInt64.size
    · have hnext : (w + 1).toNat = w.toNat + 1 := by
        rw [UInt64.toNat_add, UInt64.toNat_one, Nat.mod_eq_of_lt hroom]
      have hw : w ≠ greatest := fun h => eq_greatest_iff.1 h hroom
      simp [hroom, hw, ← UInt64.toNat_inj, hnext]
      omega
    · have hw : w = greatest := eq_greatest_iff.2 hroom
      simp only [if_neg hroom]
      simp [hw]

theorem candidate_eq_error {c : VersionIssuer κ} {key : κ} {e : Error} :
    c.candidate key = .error e ↔
      c.current? key = some greatest ∧ e = .versionsExhausted greatest := by
  rw [candidate]
  cases c.current? key with
  | none => simp
  | some w =>
    by_cases hroom : w.toNat + 1 < UInt64.size
    · have hw : w ≠ greatest := fun h => eq_greatest_iff.1 h hroom
      simp [hroom, hw]
    · have hw : w = greatest := eq_greatest_iff.2 hroom
      simp only [if_neg hroom]
      simp [hw, eq_comm]

/-- No key has fallen below where an unseen key is. -/
def Grounded (c : VersionIssuer κ) : Prop :=
  ∀ key, c.floor ≤ c.level key

theorem grounded_startingAt (initial : UInt64) :
    (startingAt initial : VersionIssuer κ).Grounded :=
  fun _ => Int.le_refl _

theorem floor_le_highest (c : VersionIssuer κ) (keys : List κ) : c.floor ≤ c.highest keys := by
  induction keys with
  | nil => exact Int.le_refl _
  | cons key keys ih => exact Int.le_trans ih (Int.le_max_right ..)

theorem level_le_highest (c : VersionIssuer κ) {keys : List κ} {key : κ} (hkey : key ∈ keys) :
    c.level key ≤ c.highest keys := by
  induction keys with
  | nil => simp at hkey
  | cons first keys ih =>
    rcases List.mem_cons.1 hkey with rfl | hkey
    · exact Int.le_max_left ..
    · exact Int.le_trans (ih hkey) (Int.le_max_right ..)

theorem newest_of_ok {c : VersionIssuer κ} (hc : c.Grounded) {keys : List κ} {v : UInt64}
    (h : c.newest keys = .ok v) :
    (∀ key ∈ keys, c.current? key ≠ some greatest) ∧ (v.toNat : Int) = c.highest keys + 1 := by
  fun_induction newest c keys generalizing v with
  | case1 =>
    obtain rfl := Except.ok.inj h
    simp [highest, floor]
  | case2 key =>
    have hkey := candidate_eq_ok.1 h
    have hfloor := hc key
    simpa [highest, Int.max_eq_left hfloor] using hkey
  | case3 key rest hrest ih =>
    obtain ⟨a, ha, h⟩ := bind_eq_ok.1 h
    obtain ⟨b, hb, h⟩ := bind_eq_ok.1 h
    obtain rfl : max a b = v := Except.ok.inj h
    have hkey := candidate_eq_ok.1 ha
    have hrest := ih hb
    refine ⟨List.forall_mem_cons.2 ⟨hkey.1, hrest.1⟩, ?_⟩
    have hmax : c.highest (key :: rest) = max (c.level key) (c.highest rest) := rfl
    rw [UInt64.toNat_max, hmax]
    omega

theorem newest_of_error {c : VersionIssuer κ} {keys : List κ} {e : Error}
    (h : c.newest keys = .error e) :
    (∃ key ∈ keys, c.current? key = some greatest) ∧ e = .versionsExhausted greatest := by
  fun_induction newest c keys with
  | case1 => simp at h
  | case2 key => simpa using candidate_eq_error.1 h
  | case3 key rest hrest ih =>
    cases hfirst : c.candidate key with
    | error e' =>
      obtain rfl : e' = e := by simpa [hfirst, bind, Except.bind] using h
      have hkey := candidate_eq_error.1 hfirst
      exact ⟨⟨key, List.mem_cons_self .., hkey.1⟩, hkey.2⟩
    | ok a =>
      cases hnext : c.newest rest with
      | ok b => simp [hfirst, hnext, bind, Except.bind, pure, Except.pure] at h
      | error e' =>
        obtain rfl : e' = e := by simpa [hfirst, hnext, bind, Except.bind] using h
        obtain ⟨⟨key', hmem, hkey'⟩, he⟩ := ih hnext
        exact ⟨⟨key', List.mem_cons_of_mem _ hmem, hkey'⟩, he⟩

/-! ### Calls -/

theorem call_of_ok {c : VersionIssuer κ} {keys : List κ} {v : UInt64}
    (h : (c.call keys).1 = .ok v) :
    c.newest keys = .ok v ∧ (c.call keys).2.initial = c.initial ∧
      ∀ key, (c.call keys).2.current? key = if key ∈ keys then some v else c.current? key := by
  rw [call] at h ⊢
  cases hnewest : c.newest keys with
  | error e => simp [hnewest] at h
  | ok w =>
    obtain rfl : w = v := by simpa [hnewest] using h
    exact ⟨rfl, foldl_record_initial c w keys, current?_foldl_record c w keys⟩

theorem call_of_error {c : VersionIssuer κ} {keys : List κ} {e : Error}
    (h : (c.call keys).1 = .error e) : c.newest keys = .error e ∧ (c.call keys).2 = c := by
  rw [call] at h ⊢
  cases hnewest : c.newest keys with
  | error e' => simpa [hnewest] using h
  | ok w => simp [hnewest] at h

theorem level_of_ok {c : VersionIssuer κ} {keys : List κ} {v : UInt64}
    (h : (c.call keys).1 = .ok v) (key : κ) :
    (c.call keys).2.level key = if key ∈ keys then (v.toNat : Int) else c.level key := by
  obtain ⟨-, hinitial, hcurrent⟩ := call_of_ok h
  by_cases hkey : key ∈ keys <;> simp [level, floor, hcurrent, hinitial, hkey]

/-- One call keeps the initial version, and lowers no key. -/
theorem level_le_call {c : VersionIssuer κ} (hc : c.Grounded) (keys : List κ) :
    (c.call keys).2.initial = c.initial ∧ ∀ key, c.level key ≤ (c.call keys).2.level key := by
  cases h : (c.call keys).1 with
  | error e => simp [(call_of_error h).2]
  | ok v =>
    obtain ⟨hnewest, hinitial, -⟩ := call_of_ok h
    refine ⟨hinitial, fun key => ?_⟩
    have hv := (newest_of_ok hc hnewest).2
    rw [level_of_ok h]
    split
    next hkey =>
      have hkey := c.level_le_highest hkey
      omega
    next => exact Int.le_refl _

theorem Grounded.call {c : VersionIssuer κ} (hc : c.Grounded) (keys : List κ) :
    (c.call keys).2.Grounded := by
  obtain ⟨hinitial, hlevel⟩ := level_le_call hc keys
  intro key
  rw [floor, hinitial]
  exact Int.le_trans (hc key) (hlevel key)

/-- So do any calls, one after the other. -/
theorem level_le_after {c : VersionIssuer κ} (hc : c.Grounded) (calls : List (List κ)) :
    (c.after calls).initial = c.initial ∧ (c.after calls).Grounded ∧
      ∀ key, c.level key ≤ (c.after calls).level key := by
  induction calls generalizing c with
  | nil => exact ⟨rfl, hc, fun key => Int.le_refl _⟩
  | cons keys calls ih =>
    obtain ⟨hinitial, hlevel⟩ := level_le_call hc keys
    obtain ⟨hinitial', hground, hlevel'⟩ := ih (hc.call keys)
    exact ⟨hinitial'.trans hinitial, hground, fun key => Int.le_trans (hlevel key) (hlevel' key)⟩

/-- A version is above every version that its keys have been given. -/
theorem lt_of_shared_key {c : VersionIssuer κ} (hc : c.Grounded) {keys keys' : List κ}
    {v v' : UInt64} {key : κ} (hkey : key ∈ keys) (hkey' : key ∈ keys')
    (h : (c.call keys).1 = .ok v) {calls : List (List κ)}
    (h' : (((c.call keys).2.after calls).call keys').1 = .ok v') : v < v' := by
  obtain ⟨-, hground, hlevel⟩ := level_le_after (hc.call keys) calls
  have hfirst := hlevel key
  have hlater := ((c.call keys).2.after calls).level_le_highest hkey'
  have hv' := (newest_of_ok hground (call_of_ok h').1).2
  simp only [level_of_ok h, if_pos hkey] at hfirst
  rw [UInt64.lt_iff_toNat_lt]
  omega

/-- After any calls, a further call succeeds exactly if none of its keys holds the greatest version.
Its version is then one above the highest level of its keys, and all of its keys hold it, while no
other key changes. Otherwise the issuer stays as it was. No version is below the initial one, and of
two calls that share a key the later one gets the greater version. -/
theorem versions_increase (initial : UInt64) (calls : List (List κ)) :
    ∃ c : VersionIssuer κ, (startingAt initial).after calls = c ∧ c.initial = initial ∧
      (∀ keys, (∃ v, (c.call keys).1 = .ok v) ↔ ∀ key ∈ keys, c.current? key ≠ some greatest) ∧
      (∀ keys v, (c.call keys).1 = .ok v →
        (v.toNat : Int) = c.highest keys + 1 ∧ initial ≤ v ∧
          ∀ key, (c.call keys).2.current? key = if key ∈ keys then some v else c.current? key) ∧
      (∀ keys e, (c.call keys).1 = .error e →
        e = .versionsExhausted greatest ∧ (c.call keys).2 = c) ∧
      ∀ keys v, (c.call keys).1 = .ok v → ∀ calls' keys' v',
        (((c.call keys).2.after calls').call keys').1 = .ok v' → (∃ key ∈ keys, key ∈ keys') →
          v < v' := by
  set c := (startingAt initial : VersionIssuer κ).after calls
  obtain ⟨hinitial, hc, -⟩ : c.initial = initial ∧ c.Grounded ∧ _ :=
    level_le_after (grounded_startingAt initial) calls
  refine ⟨c, rfl, hinitial, fun keys => ⟨?_, ?_⟩, fun keys v h => ?_, fun keys e h => ?_,
    fun keys v h calls' keys' v' h' ⟨key, hkey, hkey'⟩ => lt_of_shared_key hc hkey hkey' h h'⟩
  · intro ⟨v, h⟩
    exact (newest_of_ok hc (call_of_ok h).1).1
  · intro hroom
    cases h : (c.call keys).1 with
    | ok v => exact ⟨v, rfl⟩
    | error e =>
      obtain ⟨key, hkey, hfull⟩ := (newest_of_error (call_of_error h).1).1
      exact absurd hfull (hroom key hkey)
  · obtain ⟨hnewest, -, hcurrent⟩ := call_of_ok h
    have hv := (newest_of_ok hc hnewest).2
    have hfloor := c.floor_le_highest keys
    have hlow : c.floor = initial.toNat - 1 := by rw [floor, hinitial]
    refine ⟨hv, ?_, hcurrent⟩
    rw [UInt64.le_iff_toNat_le]
    omega
  · obtain ⟨hnewest, hsame⟩ := call_of_error h
    exact ⟨(newest_of_error hnewest).2, hsame⟩

/-- The call fails at its second key, and has not recorded its first. -/
example : (((startingAt greatest).after [[1]]).call [0, 1]).2.current? 0 = none := by
  rfl

end VersionIssuer

end ReplicaRing
