import Mathlib.Tactic.IntervalCases
import ReplicaRing.Json.Reading

/-!
# Literals are read back

A string literal is read as the text it was written for, whatever characters the text has
(`readString?_writeString`): escaping takes away just what the reader would stop at. A count is read
back as it was written, as long as nothing follows that would go on with the number
(`readNumber?_toDigits`), and its digits spell the count (`natural?_ofNat`).
-/

namespace ReplicaRing.Json

/-! ### Strings -/

/-- The four digits that escape a control character spell its number. -/
theorem unitOfHex?_hex {n : Nat} (h : n < 0x20) :
    ∃ a b c d, (Text.hex 4 n).toList = [a, b, c, d] ∧
      unitOfHex? a b c d = some (.char (Char.ofNat n)) := by
  interval_cases n <;> exact ⟨_, _, _, _, rfl, rfl⟩

/-- A character that stands for itself is one unit. -/
theorem readUnits?_cons {c : Char} {s rest : List Char} {units : List StringUnit}
    (hquote : c ≠ '"') (hslash : c ≠ '\\') (hcontrol : ¬ c.toNat < 0x20)
    (h : readUnits? s = some (units, rest)) :
    readUnits? (c :: s) = some (.char c :: units, rest) := by
  rw [readUnits?]
  · simp [hslash, hcontrol, h]
  · exact hquote
  · intro _ _ _ _ _ heq
    exact absurd heq hslash
  · intro _ _ heq
    exact absurd heq hslash

/-- However a character is written, it is read as that character. -/
theorem readUnits?_escapeChar (c : Char) {s rest : List Char} {units : List StringUnit}
    (h : readUnits? s = some (units, rest)) :
    readUnits? (escapeChar c ++ s) = some (.char c :: units, rest) := by
  unfold escapeChar
  split_ifs with hquote hslash hline htab hreturn hback hfeed hcontrol
  · subst hquote
    simp [readUnits?, escaped?, h]
  · subst hslash
    simp [readUnits?, escaped?, h]
  · subst hline
    simp [readUnits?, escaped?, h]
  · subst htab
    simp [readUnits?, escaped?, h]
  · subst hreturn
    simp [readUnits?, escaped?, h]
  · subst hback
    simp [readUnits?, escaped?, h]
  · subst hfeed
    simp [readUnits?, escaped?, h]
  · obtain ⟨a, b, d, e, hhex, hunit⟩ := unitOfHex?_hex hcontrol
    rw [Char.ofNat_toNat] at hunit
    rw [hhex]
    simp [readUnits?, hunit, h]
  · exact readUnits?_cons hquote hslash hcontrol h

theorem readUnits?_flatMap_escapeChar (cs rest : List Char) :
    readUnits? (cs.flatMap escapeChar ++ '"' :: rest) = some (cs.map .char, rest) := by
  induction cs with
  | nil => simp [readUnits?]
  | cons c cs ih =>
    rw [List.flatMap_cons, List.append_assoc, List.map_cons]
    exact readUnits?_escapeChar c ih

theorem charsOfUnits?_map_char (cs : List Char) : charsOfUnits? (cs.map .char) = some cs := by
  induction cs with
  | nil => rfl
  | cons c cs ih => rw [List.map_cons, charsOfUnits?, ih, Option.map_some]

theorem writeString_none : writeString none = ['"', '\\', 'u', 'd', '8', '0', '0', '"'] := rfl

theorem writeString_some (s : String) :
    writeString (some s) = '"' :: (s.toList.flatMap escapeChar ++ ['"']) := rfl

/-- A literal is read back as what it was written for, after its opening quote. -/
theorem readString?_writeString (text : Option String) (rest : List Char) :
    ∃ body, writeString text ++ rest = '"' :: body ∧ readString? body = some (text, rest) := by
  cases text with
  | none =>
    have hunit : unitOfHex? 'd' '8' '0' '0' = some (.surrogate 0xD800) := rfl
    refine ⟨'\\' :: 'u' :: 'd' :: '8' :: '0' :: '0' :: '"' :: rest, by rw [writeString_none]; rfl, ?_⟩
    simp [readString?, readUnits?, hunit, charsOfUnits?]
  | some s =>
    refine ⟨s.toList.flatMap escapeChar ++ '"' :: rest, by simp [writeString_some], ?_⟩
    simp [readString?, readUnits?_flatMap_escapeChar, charsOfUnits?_map_char]

/-! ### Counts -/

/-- Nothing follows that would go on with a number. -/
def EndsNumber (rest : List Char) : Prop :=
  ∀ c, rest.head? = some c → c.isDigit = false ∧ c ≠ '.' ∧ c ≠ 'e' ∧ c ≠ 'E'

theorem endsNumber_cons {c : Char} {rest : List Char} (hdigit : c.isDigit = false)
    (hpoint : c ≠ '.') (hsmall : c ≠ 'e') (hlarge : c ≠ 'E') : EndsNumber (c :: rest) := by
  intro d hd
  obtain rfl : c = d := Option.some.inj hd
  exact ⟨hdigit, hpoint, hsmall, hlarge⟩

theorem endsNumber_nil : EndsNumber [] := by
  intro c hc
  cases hc

/-- Digits are read up to the first character that is none. -/
theorem spanDigits_append {ds rest : List Char} (hds : ∀ c ∈ ds, c.isDigit = true)
    (hrest : EndsNumber rest) : spanDigits (ds ++ rest) = (ds, rest) := by
  have hstop : rest.takeWhile Char.isDigit = [] ∧ rest.dropWhile Char.isDigit = rest := by
    cases rest with
    | nil => exact ⟨rfl, rfl⟩
    | cons c rest => simp [(hrest c rfl).1]
  unfold spanDigits
  rw [List.takeWhile_append_of_pos hds, List.dropWhile_append_of_pos hds, hstop.1, hstop.2,
    List.append_nil]

theorem isDigit_of_mem_toDigits {n : Nat} {c : Char} (h : c ∈ Nat.toDigits 10 n) :
    c.isDigit = true :=
  Nat.isDigit_of_mem_toDigits (by omega) (by omega) h

/-- A count has a first digit. -/
theorem exists_toDigits_eq_cons (n : Nat) :
    ∃ c ds, Nat.toDigits 10 n = c :: ds ∧ c.isDigit = true := by
  cases h : Nat.toDigits 10 n with
  | nil => exact absurd h Nat.toDigits_ne_nil
  | cons c ds =>
    refine ⟨c, ds, rfl, isDigit_of_mem_toDigits (n := n) ?_⟩
    rw [h]
    exact List.mem_cons_self ..

/-- Only zero is written with a zero in front. -/
theorem toDigits_append_ne_zero_cons {n : Nat} (h : 0 < n) (rest tail : List Char) :
    Nat.toDigits 10 n ++ rest ≠ '0' :: tail := by
  induction n using Nat.strong_induction_on generalizing rest with
  | _ n ih =>
    by_cases hlt : n < 10
    · rw [Nat.toDigits_of_lt_base hlt]
      interval_cases n <;> simp [Nat.digitChar]
    · rw [Nat.toDigits_of_base_le (by omega) (by omega), List.append_assoc]
      exact ih (n / 10) (by omega) (by omega) _

theorem readWhole?_toDigits (n : Nat) {rest : List Char} (hrest : EndsNumber rest) :
    readWhole? (Nat.toDigits 10 n ++ rest) = some (Nat.toDigits 10 n, rest) := by
  rcases Nat.eq_zero_or_pos n with rfl | hpos
  · have hdigit : rest.head?.any Char.isDigit = false := by
      cases rest with
      | nil => rfl
      | cons c rest => exact (hrest c rfl).1
    rw [Nat.toDigits_zero, List.singleton_append, readWhole?, hdigit]
    rfl
  · have hdigits : ∀ c ∈ Nat.toDigits 10 n, c.isDigit = true := fun c => isDigit_of_mem_toDigits
    rw [readWhole?]
    · simp [readDigits?, spanDigits_append hdigits hrest, Nat.toDigits_ne_nil]
    · intro tail heq
      exact toDigits_append_ne_zero_cons hpos rest tail heq

/-- A count is read back up to its end. -/
theorem readNumber?_toDigits (n : Nat) {rest : List Char} (hrest : EndsNumber rest) :
    readNumber? (Nat.toDigits 10 n ++ rest) = some (Nat.toDigits 10 n, rest) := by
  have hfraction : readFraction? rest = some ([], rest) := by
    rw [readFraction?]
    intro tail heq
    exact (hrest '.' (by rw [heq, List.head?_cons])).2.1 rfl
  have hexponent : readExponent? rest = some ([], rest) := by
    cases rest with
    | nil => rfl
    | cons c rest =>
      obtain ⟨-, -, hsmall, hlarge⟩ := hrest c rfl
      simp [readExponent?, hsmall, hlarge]
  rw [readNumber?]
  · simp [readMagnitude?, readWhole?_toDigits n hrest, hfraction, hexponent]
  · intro tail heq
    -- The number starts with a digit, and a minus is none.
    obtain ⟨c, ds, hds, hc⟩ := exists_toDigits_eq_cons n
    rw [hds, List.cons_append] at heq
    rw [(List.cons.inj heq).1] at hc
    exact absurd hc (by decide)

/-- The digits of a count spell it. -/
theorem natural?_ofNat (n : Nat) : (ofNat n).natural? = some n := by
  have hall : (Nat.toDigits 10 n).all Char.isDigit = true :=
    List.all_eq_true.2 fun c => isDigit_of_mem_toDigits
  rw [ofNat, natural?, if_pos hall]
  have hvalue := Nat.ofDigitChars_ten_toDigits (n := n)
  rw [Nat.ofDigitChars_eq_foldl] at hvalue
  exact congrArg some hvalue

end ReplicaRing.Json
