import ReplicaRing.Json.Record
import ReplicaRing.Proofs.Json.Literals

/-!
# Values are read back

What is written for a value whose numbers are counts is read as that value, up to the end of the
text or the comma or bracket after it (`read?_write`). A document that ends with the value is read
as a whole (`readDocument_write`). The bound on nested steps does not get in the way: every step
takes at least one character, and so the length of the text is enough.
-/

namespace ReplicaRing.Json

/-! ### Values whose numbers are counts -/

/-- A value in which every number is a count. -/
inductive Counted : Json → Prop
  | null : Counted null
  | boolean (b : Bool) : Counted (boolean b)
  | count (n : Nat) : Counted (ofNat n)
  | string (text : Option String) : Counted (string text)
  | array {elements : List Json} (h : ∀ value ∈ elements, Counted value) : Counted (array elements)
  | object {members : List (Option String × Json)} (h : ∀ m ∈ members, Counted m.2) :
    Counted (object members)

@[simp] theorem counted_ofText (s : String) : Counted (ofText s) :=
  .string (some s)

@[simp] theorem counted_ofNat (n : Nat) : Counted (ofNat n) :=
  .count n

@[simp] theorem counted_array {elements : List Json} :
    Counted (array elements) ↔ ∀ value ∈ elements, Counted value := by
  refine ⟨fun h => ?_, .array⟩
  cases h with
  | array h => exact h

@[simp] theorem counted_ofTexts (texts : List String) : Counted (ofTexts texts) := by
  simp [ofTexts]

@[simp] theorem counted_ofFields {fields : List (String × Json)} :
    Counted (ofFields fields) ↔ ∀ f ∈ fields, Counted f.2 := by
  constructor
  · intro h f hf
    cases h with
    | object h => exact h (some f.1, f.2) (List.mem_map_of_mem hf)
  · intro h
    refine .object fun m hm => ?_
    obtain ⟨f, hf, rfl⟩ := List.mem_map.1 hm
    exact h f hf

/-! ### The parts of a text -/

theorem skipSpace_cons {c : Char} (h : isSpace c = false) (s : List Char) :
    skipSpace (c :: s) = c :: s := by
  simp [skipSpace, h]

theorem isSpace_of_isDigit {c : Char} (h : c.isDigit = true) : isSpace c = false := by
  unfold isSpace
  simp only [Bool.or_eq_false_iff, decide_eq_false_iff_not]
  refine ⟨⟨⟨?_, ?_⟩, ?_⟩, ?_⟩ <;> (rintro rfl; revert h; decide)

/-- A written value starts with a character that is neither blank nor the end of an array. -/
theorem exists_write_eq_cons {json : Json} (h : Counted json) :
    ∃ c tail, json.write = c :: tail ∧ isSpace c = false ∧ c ≠ ']' := by
  cases h with
  | null => exact ⟨'n', _, rfl, rfl, by decide⟩
  | boolean b => cases b <;> exact ⟨_, _, rfl, rfl, by decide⟩
  | count n =>
    obtain ⟨c, ds, hds, hc⟩ := exists_toDigits_eq_cons n
    refine ⟨c, ds, hds, isSpace_of_isDigit hc, ?_⟩
    rintro rfl
    exact absurd hc (by decide)
  | string text => cases text <;> exact ⟨'"', _, rfl, rfl, by decide⟩
  | @array elements h => cases elements <;> exact ⟨'[', _, rfl, rfl, by decide⟩
  | @object members h =>
    cases members with
    | nil => exact ⟨_, _, rfl, rfl, by decide⟩
    | cons m members => exact ⟨_, _, rfl, rfl, by decide⟩

/-- The elements after the first one start with a comma or end the array. -/
theorem endsNumber_writeElements (values : List Json) (rest : List Char) :
    EndsNumber (writeElements values ++ rest) := by
  cases values <;> exact endsNumber_cons (by decide) (by decide) (by decide) (by decide)

theorem endsNumber_writeMembers (members : List (Option String × Json)) (rest : List Char) :
    EndsNumber (writeMembers members ++ rest) := by
  cases members <;> exact endsNumber_cons (by decide) (by decide) (by decide) (by decide)

/-- A key is read back with the colon after it. -/
theorem readKey?_writeString (key : Option String) (rest : List Char) :
    readKey? (writeString key ++ ':' :: rest) = some (key, rest) := by
  obtain ⟨body, hbody, hread⟩ := readString?_writeString key (':' :: rest)
  rw [hbody, readKey?, skipSpace_cons (by decide)]
  simp [hread, skipSpace_cons (show isSpace ':' = false by decide)]

/-! ### Values -/

/-- The value is read back from what is written for it, in as many steps as that has characters. -/
def ReadBack (json : Json) : Prop :=
  ∀ steps rest, json.write.length ≤ steps → EndsNumber rest →
    readValue? steps (json.write ++ rest) = some (json, rest)

theorem readElements?_writeElements {values : List Json} (h : ∀ value ∈ values, ReadBack value)
    {steps : Nat} (hsteps : (writeElements values).length ≤ steps) (rest : List Char) :
    readElements? steps (writeElements values ++ rest) = some (values, rest) := by
  induction values generalizing steps with
  | nil =>
    obtain ⟨n, rfl⟩ : ∃ n, steps = n + 1 := ⟨steps - 1, by simp [writeElements] at hsteps; omega⟩
    rw [writeElements, List.singleton_append, readElements?, skipSpace_cons (by decide)]
    rfl
  | cons value values ih =>
    obtain ⟨hvalue, hvalues⟩ := List.forall_mem_cons.1 h
    simp only [writeElements, List.length_cons, List.length_append] at hsteps
    obtain ⟨n, rfl⟩ : ∃ n, steps = n + 1 := ⟨steps - 1, by omega⟩
    have hread := hvalue n (writeElements values ++ rest) (by omega)
      (endsNumber_writeElements values rest)
    have hlength : (writeElements values).length ≤ n := by omega
    have hrest := ih hvalues hlength
    rw [writeElements, List.append_assoc, List.cons_append, readElements?,
      skipSpace_cons (by decide)]
    simp [hread, hrest]

theorem readMembers?_writeMembers {members : List (Option String × Json)}
    (h : ∀ m ∈ members, ReadBack m.2) {steps : Nat}
    (hsteps : (writeMembers members).length ≤ steps) (rest : List Char) :
    readMembers? steps (writeMembers members ++ rest) = some (members, rest) := by
  induction members generalizing steps with
  | nil =>
    obtain ⟨n, rfl⟩ : ∃ n, steps = n + 1 := ⟨steps - 1, by simp [writeMembers] at hsteps; omega⟩
    rw [writeMembers, List.singleton_append, readMembers?, skipSpace_cons (by decide)]
    rfl
  | cons m members ih =>
    obtain ⟨key, value⟩ := m
    obtain ⟨hvalue, hmembers⟩ := List.forall_mem_cons.1 h
    simp only [writeMembers, List.length_cons, List.length_append] at hsteps
    obtain ⟨n, rfl⟩ : ∃ n, steps = n + 1 := ⟨steps - 1, by omega⟩
    have hread := hvalue n (writeMembers members ++ rest) (show value.write.length ≤ n by omega)
      (endsNumber_writeMembers members rest)
    have hlength : (writeMembers members).length ≤ n := by omega
    have hrest := ih hmembers hlength
    have hkey := readKey?_writeString key (value.write ++ (writeMembers members ++ rest))
    rw [writeMembers, readMembers?]
    simp only [List.cons_append, List.append_assoc, skipSpace_cons (show isSpace ',' = false by decide)]
    simp [hkey, hread, hrest]

/-- A value that starts with a digit is a number. -/
theorem readValue?_of_isDigit {c : Char} (h : c.isDigit = true) (steps : Nat) (s : List Char) :
    readValue? (steps + 1) (c :: s) =
      (readNumber? (c :: s)).map fun (literal, s) => (number literal, s) := by
  rw [readValue?, skipSpace_cons (isSpace_of_isDigit h)]
  split <;> first | rfl | (rename_i heq; cases heq; exact absurd h (by decide))

/-- A written value has at least one character, so reading it has at least one step. -/
theorem exists_steps {json : Json} (h : Counted json) {steps : Nat}
    (hsteps : json.write.length ≤ steps) : ∃ n, steps = n + 1 := by
  obtain ⟨c, tail, hwrite, -⟩ := exists_write_eq_cons h
  rw [hwrite, List.length_cons] at hsteps
  exact ⟨steps - 1, by omega⟩

theorem write_array_cons (value : Json) (values : List Json) :
    (array (value :: values)).write = '[' :: (value.write ++ writeElements values) := rfl

theorem write_object_cons (key : Option String) (value : Json)
    (members : List (Option String × Json)) :
    (object ((key, value) :: members)).write =
      '\x7b' :: (writeString key ++ ':' :: (value.write ++ writeMembers members)) := by
  show '\x7b' :: (writeString key ++ ':' :: value.write ++ writeMembers members) = _
  rw [List.append_assoc, List.cons_append]

/-- An array is read back if its elements are. -/
theorem readBack_array {elements : List Json} (hcounted : ∀ value ∈ elements, Counted value)
    (h : ∀ value ∈ elements, ReadBack value) : ReadBack (array elements) := by
  intro steps rest hsteps hrest
  obtain ⟨n, rfl⟩ := exists_steps (.array hcounted) hsteps
  cases elements with
  | nil =>
    show readValue? (n + 1) ('[' :: ']' :: rest) = _
    simp [readValue?, skipSpace, isSpace]
  | cons value values =>
    obtain ⟨hvalue, hvalues⟩ := List.forall_mem_cons.1 h
    obtain ⟨c, tail, hwrite, hspace, hbracket⟩ :=
      exists_write_eq_cons (hcounted value (List.mem_cons_self ..))
    rw [write_array_cons, List.length_cons, List.length_append] at hsteps
    have hread := hvalue n (writeElements values ++ rest) (by omega)
      (endsNumber_writeElements values rest)
    have hrestLength : (writeElements values).length ≤ n := by omega
    have hreads := readElements?_writeElements hvalues hrestLength rest
    have hskip : skipSpace (value.write ++ (writeElements values ++ rest)) =
        value.write ++ (writeElements values ++ rest) := by
      rw [hwrite, List.cons_append, skipSpace_cons hspace]
    rw [write_array_cons, List.cons_append, List.append_assoc, readValue?,
      skipSpace_cons (by decide)]
    simp only [hskip]
    split
    · -- The first element does not start with a bracket, so the array does not end here.
      rename_i heq
      rw [hwrite, List.cons_append] at heq
      exact absurd (List.cons.inj heq).1 hbracket
    · simp [hread, hreads]

/-- An object is read back if the values of its members are. -/
theorem readBack_object {members : List (Option String × Json)}
    (hcounted : ∀ m ∈ members, Counted m.2) (h : ∀ m ∈ members, ReadBack m.2) :
    ReadBack (object members) := by
  intro steps rest hsteps hrest
  obtain ⟨n, rfl⟩ := exists_steps (.object hcounted) hsteps
  cases members with
  | nil =>
    show readValue? (n + 1) ('\x7b' :: '\x7d' :: rest) = _
    simp [readValue?, skipSpace, isSpace]
  | cons m members =>
    obtain ⟨key, value⟩ := m
    obtain ⟨hvalue, hmembers⟩ := List.forall_mem_cons.1 h
    simp only [write_object_cons, List.length_cons, List.length_append] at hsteps
    have hread := hvalue n (writeMembers members ++ rest) (show value.write.length ≤ n by omega)
      (endsNumber_writeMembers members rest)
    have hrestLength : (writeMembers members).length ≤ n := by omega
    have hreads := readMembers?_writeMembers hmembers hrestLength rest
    have hkey := readKey?_writeString key (value.write ++ (writeMembers members ++ rest))
    obtain ⟨body, hbody, -⟩ :=
      readString?_writeString key (':' :: (value.write ++ (writeMembers members ++ rest)))
    have htext : (object ((key, value) :: members)).write ++ rest =
        '\x7b' :: (writeString key ++ ':' :: (value.write ++ (writeMembers members ++ rest))) := by
      simp [write_object_cons]
    have hskip : skipSpace ('"' :: body) = '"' :: body := skipSpace_cons (by decide) body
    rw [htext, readValue?, skipSpace_cons (by decide)]
    simp only [hbody, hskip]
    split
    · -- A key starts with a quote, so the object does not end here.
      rename_i heq
      exact absurd (List.cons.inj heq).1 (by decide)
    · rw [hbody] at hkey
      simp [hkey, hread, hreads]

/-- Everything that is written for a value whose numbers are counts is read back. -/
theorem readBack_of_counted {json : Json} (h : Counted json) : ReadBack json := by
  induction h with
  | null =>
    intro steps rest hsteps _
    obtain ⟨n, rfl⟩ := exists_steps .null hsteps
    show readValue? (n + 1) ('n' :: 'u' :: 'l' :: 'l' :: rest) = _
    simp [readValue?, skipSpace, isSpace, readWord?]
  | boolean b =>
    intro steps rest hsteps _
    obtain ⟨n, rfl⟩ := exists_steps (.boolean b) hsteps
    cases b with
    | true =>
      show readValue? (n + 1) ('t' :: 'r' :: 'u' :: 'e' :: rest) = _
      simp [readValue?, skipSpace, isSpace, readWord?]
    | false =>
      show readValue? (n + 1) ('f' :: 'a' :: 'l' :: 's' :: 'e' :: rest) = _
      simp [readValue?, skipSpace, isSpace, readWord?]
  | count m =>
    intro steps rest hsteps hrest
    obtain ⟨n, rfl⟩ := exists_steps (.count m) hsteps
    obtain ⟨c, ds, hds, hc⟩ := exists_toDigits_eq_cons m
    show readValue? (n + 1) (Nat.toDigits 10 m ++ rest) = some (number (Nat.toDigits 10 m), rest)
    rw [hds, List.cons_append, readValue?_of_isDigit hc, ← List.cons_append, ← hds,
      readNumber?_toDigits m hrest]
    rfl
  | string text =>
    intro steps rest hsteps _
    obtain ⟨n, rfl⟩ := exists_steps (.string text) hsteps
    obtain ⟨body, hbody, hread⟩ := readString?_writeString text rest
    show readValue? (n + 1) (writeString text ++ rest) = _
    rw [hbody]
    simp [readValue?, skipSpace, isSpace, hread]
  | array h ih => exact readBack_array h ih
  | object h ih => exact readBack_object h ih

/-- A value is read back in front of whatever does not go on with a number. -/
theorem read?_write {json : Json} (h : Counted json) {rest : List Char} (hrest : EndsNumber rest) :
    read? (json.write ++ rest) = some (json, rest) := by
  apply readBack_of_counted h _ _ _ hrest
  rw [List.length_append]
  omega

variable {α : Type}

/-- A document that consists of the value alone is read as the value is. -/
theorem readDocument_write {json : Json} (h : Counted json) (read : Json → Except ParseFault α) :
    readDocument read json.write = read json := by
  have hread := read?_write h endsNumber_nil
  rw [List.append_nil] at hread
  rw [readDocument, hread]
  dsimp only
  cases read json <;> rfl

theorem readPlain_write {json : Json} (h : Counted json) {read : Json → Option α} {a : α}
    (hread : read json = some a) : readPlain read json.write = .ok a := by
  rw [readPlain, readDocument_write h, hread]

end ReplicaRing.Json
