import ReplicaRing.Json.Record
import ReplicaRing.Maps
import ReplicaRing.Proofs.Json.Literals
import ReplicaRing.Proofs.Results

/-!
# Records are taken apart as they were put together

The lemmas here say what each reader of a part finds in the value that the writer of the part makes.
They are tagged for `simp`, so the reader of a record finds its fields by computing.
-/

namespace ReplicaRing.Json

variable {α : Type}

@[simp] theorem text?_ofText (s : String) : (ofText s).text? = some s := rfl

@[simp] theorem bareAlternative?_ofText (s : String) : (ofText s).bareAlternative? = some s := rfl

@[simp] theorem elements?_array (elements : List Json) : (array elements).elements? = some elements :=
  rfl

/-- An object with one member is the alternative that the member names. -/
@[simp] theorem alternative?_ofFields (name : String) (body : Json) :
    (ofFields [(name, body)]).alternative? = some (name, body) := rfl

@[simp] theorem members?_ofFields (fields : List (String × Json)) :
    (ofFields fields).members? = some fields := by
  rw [ofFields, members?]
  induction fields with
  | nil => rfl
  | cons f fields ih => simp [ih]

@[simp] theorem record?_ofFields (names : List String) (fields : List (String × Json)) :
    (ofFields fields).record? names = names.mapM (field? fields) := by
  have hmembers := members?_ofFields fields
  rw [ofFields] at hmembers ⊢
  rw [record?, hmembers, Option.bind_some]

@[simp] theorem texts?_ofTexts (texts : List String) : (ofTexts texts).texts? = some texts := by
  rw [ofTexts, texts?, elements?_array, Option.bind_some]
  exact mapM_map_eq_some fun s _ => text?_ofText s

@[simp] theorem word32?_ofNat_toNat (w : UInt32) : (ofNat w.toNat).word32? = some w := by
  rw [word32?, natural?_ofNat, Option.bind_some, if_pos w.toNat_lt_size, UInt32.ofNat_toNat]

@[simp] theorem orDefault?_some (default : α) (read : Json → Option α) (json : Json) :
    orDefault? default read (some json) = read json := rfl

@[simp] theorem optional?_none (read : Json → Option α) : optional? read none = some none := rfl

/-- A text, an array or an object that is present is read. -/
theorem optional?_some (read : Json → Option α) {json : Json} (h : json ≠ null) :
    optional? read (some json) = (read json).map some := by
  unfold optional?
  split
  · contradiction
  · rename_i heq
    exact absurd (Option.some.inj heq) h
  · rename_i heq
    rw [Option.some.inj heq]

@[simp] theorem optional?_ofTexts (read : Json → Option α) (texts : List String) :
    optional? read (some (ofTexts texts)) = (read (ofTexts texts)).map some :=
  optional?_some read (by simp [ofTexts])

end ReplicaRing.Json
