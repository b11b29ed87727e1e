import ReplicaRing.Text.Blank
import Mathlib.Data.List.Basic

/-!
# Words and the blanks around them

Cutting a text at its blanks carries the word that is open along; what has been read of it can be
put back in front of the rest (`wordsFrom_append`). So the words of a text are read off its form: a
gap in front does not count (`words_gap_append`), and a word that ends at a gap or at the end of the
text comes first (`words_append`). Every text that is not blank has this form
(`isGap_or_exists_word`).

Trimming takes away gaps only (`words_trim`). A text without words is trimmed to nothing
(`words_eq_nil_iff`), and one with two words to these with a gap between them (`words_eq_pair_iff`).
-/

namespace ReplicaRing.Text

/-- At least one character, and none of them blank. -/
def IsWord (s : List Char) : Prop :=
  s ≠ [] ∧ ∀ c ∈ s, isBlank c = false

/-- Blank characters only. -/
def IsGap (s : List Char) : Prop :=
  ∀ c ∈ s, isBlank c = true

instance (s : List Char) : Decidable (IsWord s) :=
  decidable_of_iff (s ≠ [] ∧ s.all (!isBlank ·) = true) (by simp [IsWord])

instance (s : List Char) : Decidable (IsGap s) :=
  decidable_of_iff (s.all isBlank = true) List.all_eq_true

variable {s a b gap rest : List Char}

theorem isGap_nil : IsGap [] :=
  fun _ h => absurd h List.not_mem_nil

theorem IsGap.reverse (h : IsGap gap) : IsGap gap.reverse :=
  fun c hc => h c (List.mem_reverse.1 hc)

theorem IsWord.reverse (h : IsWord a) : IsWord a.reverse :=
  ⟨by simpa using h.1, fun c hc => h.2 c (List.mem_reverse.1 hc)⟩

/-- A word does not start with a blank. -/
theorem IsWord.exists_cons (h : IsWord a) : ∃ c w, a = c :: w ∧ isBlank c = false := by
  cases a with
  | nil => exact absurd rfl h.1
  | cons c w => exact ⟨c, w, rfl, h.2 c (List.mem_cons_self ..)⟩

/-! ### Cutting -/

/-- Characters that are not blank join the open word. -/
theorem wordsFrom_append {word : List Char} (h : ∀ c ∈ a, isBlank c = false) :
    wordsFrom word (a ++ rest) = wordsFrom (a.reverse ++ word) rest := by
  induction a generalizing word with
  | nil => rfl
  | cons c a ih =>
    obtain ⟨hc, ha⟩ := List.forall_mem_cons.1 h
    rw [List.cons_append, wordsFrom, if_neg (by simp [hc]), ih ha, List.reverse_cons,
      List.append_assoc, List.singleton_append]

/-- A gap at the end only closes the open word. -/
theorem wordsFrom_append_gap {word : List Char} (h : IsGap gap) :
    wordsFrom word (s ++ gap) = wordsFrom word s := by
  induction s generalizing word with
  | nil =>
    induction gap generalizing word with
    | nil => rfl
    | cons c gap ih =>
      obtain ⟨hc, hgap⟩ := List.forall_mem_cons.1 h
      have hclosed : wordsFrom [] gap = [] := ih hgap
      simp only [List.nil_append, wordsFrom, hc, if_true, hclosed]
  | cons c s ih => simp only [List.cons_append, wordsFrom, ih]

theorem words_gap_append (h : IsGap gap) : words (gap ++ s) = words s := by
  unfold words
  induction gap with
  | nil => rfl
  | cons c gap ih =>
    obtain ⟨hc, hgap⟩ := List.forall_mem_cons.1 h
    rw [List.cons_append, wordsFrom, if_pos hc, ih hgap]
    rfl

theorem words_append_gap (h : IsGap gap) : words (s ++ gap) = words s :=
  wordsFrom_append_gap h

theorem words_of_gap (h : IsGap gap) : words gap = [] := by
  simpa [words, wordsFrom] using words_append_gap (s := []) h

/-- A word that is followed by a blank or by nothing is the first one. -/
theorem words_append (ha : IsWord a) (hrest : ∀ c ∈ rest.head?, isBlank c = true) :
    words (a ++ rest) = a :: words rest := by
  unfold words
  rw [wordsFrom_append ha.2, List.append_nil]
  cases rest with
  | nil => simp [wordsFrom, ha.1]
  | cons c rest =>
    have hc := hrest c rfl
    simp [wordsFrom, hc, ha.1]

theorem words_of_word (ha : IsWord a) : words a = [a] := by
  have h := @words_append a [] ha fun c hc => by cases hc
  rwa [List.append_nil] at h

/-- A text is blank, or it has a first word, which goes on up to a blank or to the end. -/
theorem isGap_or_exists_word (s : List Char) :
    IsGap s ∨ ∃ gap a rest, s = gap ++ (a ++ rest) ∧ IsGap gap ∧ IsWord a ∧
      ∀ c ∈ rest.head?, isBlank c = true := by
  induction s with
  | nil => exact Or.inl isGap_nil
  | cons c s ih =>
    cases hc : isBlank c with
    | true =>
      rcases ih with ih | ⟨gap, a, rest, rfl, hgap, ha, hrest⟩
      · exact Or.inl (List.forall_mem_cons.2 ⟨hc, ih⟩)
      · exact Or.inr ⟨c :: gap, a, rest, rfl, List.forall_mem_cons.2 ⟨hc, hgap⟩, ha, hrest⟩
    | false =>
      -- The first word takes in everything up to the next blank.
      refine Or.inr ⟨[], (c :: s).takeWhile (!isBlank ·), (c :: s).dropWhile (!isBlank ·), ?_,
        isGap_nil, ⟨?_, fun d hd => ?_⟩, fun d hd => ?_⟩
      · rw [List.nil_append, List.takeWhile_append_dropWhile]
      · simp [hc]
      · simpa using List.all_eq_true.1 List.all_takeWhile d hd
      · have hnot := List.head?_dropWhile_not (!isBlank ·) (c :: s)
        rw [Option.mem_def] at hd
        rw [hd] at hnot
        simpa using hnot

theorem isGap_of_words_eq_nil (h : words s = []) : IsGap s := by
  rcases isGap_or_exists_word s with hs | ⟨front, a, rest, rfl, hfront, ha, hrest⟩
  · exact hs
  · rw [words_gap_append hfront, words_append ha hrest] at h
    cases h

/-- A text with a first word consists of a gap, this word and what has the other words. -/
theorem exists_of_words_eq_cons {ws : List (List Char)} (h : words s = a :: ws) :
    ∃ front rest, s = front ++ (a ++ rest) ∧ IsGap front ∧ IsWord a ∧
      (∀ c ∈ rest.head?, isBlank c = true) ∧ words rest = ws := by
  rcases isGap_or_exists_word s with hs | ⟨front, a', rest, rfl, hfront, ha, hrest⟩
  · rw [words_of_gap hs] at h
    cases h
  · rw [words_gap_append hfront, words_append ha hrest, List.cons.injEq] at h
    obtain ⟨rfl, hws⟩ := h
    exact ⟨front, rest, rfl, hfront, ha, hrest, hws⟩

/-! ### Trimming -/

/-- What is trimmed away is a gap in front and a gap at the end. -/
theorem exists_trim (s : List Char) :
    ∃ front back, s = front ++ (trim s ++ back) ∧ IsGap front ∧ IsGap back := by
  have hgap : ∀ s : List Char, IsGap (s.takeWhile isBlank) :=
    fun s c hc => List.all_eq_true.1 List.all_takeWhile c hc
  refine ⟨s.takeWhile isBlank, ((trimStart s).reverse.takeWhile isBlank).reverse, ?_, hgap s,
    (hgap _).reverse⟩
  unfold trim trimStart
  rw [← List.reverse_append, List.takeWhile_append_dropWhile, List.reverse_reverse,
    List.takeWhile_append_dropWhile]

/-- Trimming neither adds nor removes a word. -/
theorem words_trim (s : List Char) : words (trim s) = words s := by
  obtain ⟨front, back, hs, hfront, hback⟩ := exists_trim s
  conv_rhs => rw [hs]
  rw [words_gap_append hfront, words_append_gap hback]

theorem trimStart_gap_append (h : IsGap gap) : trimStart (gap ++ s) = trimStart s :=
  List.dropWhile_append_of_pos h

theorem trimStart_append_word (ha : IsWord a) : trimStart (a ++ rest) = a ++ rest := by
  obtain ⟨c, w, rfl, hc⟩ := ha.exists_cons
  exact List.dropWhile_cons_of_neg (by simp [hc])

theorem trim_gap (h : IsGap s) : trim s = [] := by
  have hstart : trimStart s = [] := by
    simpa [trimStart] using trimStart_gap_append (s := []) h
  unfold trim
  rw [hstart]
  rfl

/-- Gaps around two words are trimmed away, the gap between them stays. -/
theorem trim_pair {front back : List Char} (hfront : IsGap front) (ha : IsWord a) (hb : IsWord b)
    (hback : IsGap back) : trim (front ++ (a ++ (gap ++ (b ++ back)))) = a ++ (gap ++ b) := by
  have hreverse : (a ++ (gap ++ (b ++ back))).reverse =
      back.reverse ++ (b.reverse ++ (a ++ gap).reverse) := by simp
  unfold trim
  rw [trimStart_gap_append hfront, trimStart_append_word ha, hreverse,
    trimStart_gap_append hback.reverse, trimStart_append_word hb.reverse]
  simp

/-! ### Texts with no word and with two words -/

theorem words_eq_nil_iff : words s = [] ↔ trim s = [] := by
  constructor
  · intro h
    exact trim_gap (isGap_of_words_eq_nil h)
  · intro h
    rw [← words_trim, h]
    rfl

theorem words_eq_pair_iff : words s = [a, b] ↔
    ∃ gap, trim s = a ++ (gap ++ b) ∧ IsWord a ∧ gap ≠ [] ∧ IsGap gap ∧ IsWord b := by
  constructor
  · intro h
    obtain ⟨front, rest, rfl, hfront, ha, hrest, h⟩ := exists_of_words_eq_cons h
    obtain ⟨gap, back, rfl, hgap, hb, -, h⟩ := exists_of_words_eq_cons h
    refine ⟨gap, trim_pair hfront ha hb (isGap_of_words_eq_nil h), ha, ?_, hgap, hb⟩
    -- Without a gap the first word would go on.
    rintro rfl
    obtain ⟨c, w, rfl, hc⟩ := hb.exists_cons
    have hblank := hrest c rfl
    rw [hc] at hblank
    cases hblank
  · rintro ⟨gap, htrim, ha, hne, hgap, hb⟩
    have hafter : ∀ c ∈ (gap ++ b).head?, isBlank c = true := by
      cases gap with
      | nil => exact absurd rfl hne
      | cons c gap =>
        rintro d ⟨⟩
        exact hgap c (List.mem_cons_self ..)
    rw [← words_trim, htrim, words_append ha hafter, words_gap_append hgap, words_of_word hb]

end ReplicaRing.Text
