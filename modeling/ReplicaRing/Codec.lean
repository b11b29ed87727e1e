/-!
# Codecs

A `Codec` writes values as bytes and reads them back. Two laws come with it. What was written is
read back whatever follows it, so values can be written one after the other without separators. And
what was read from some bytes is read from the same bytes when more follow, so a reader never looks
past what it takes; it follows that a proper beginning of a written value reads as nothing
(`read_eq_none_of_prefix`).
-/

namespace ReplicaRing

/-- A way to write values as bytes and to read them back. -/
structure Codec (α : Type) where
  /-- The bytes of a value. -/
  write : α → List UInt8
  /-- The value at the front of some bytes, and the bytes after it. -/
  read : List UInt8 → Option (α × List UInt8)
  /-- What is written is read back, whatever follows. -/
  read_write : ∀ (a : α) (rest : List UInt8), read (write a ++ rest) = some (a, rest)
  /-- More bytes at the end change nothing. -/
  read_append : ∀ (s : List UInt8) (a : α) (rest more : List UInt8),
    read s = some (a, rest) → read (s ++ more) = some (a, rest ++ more)

variable {α β : Type}

/-! ### Repetition -/

/-- Reads `n` things one after the other. -/
def readTimes (read : List UInt8 → Option (α × List UInt8)) :
    Nat → List UInt8 → Option (List α × List UInt8)
  | 0, s => some ([], s)
  | n + 1, s =>
    (read s).bind fun (a, s) => (readTimes read n s).map fun (as, s) => (a :: as, s)

theorem readTimes_flatMap {read : List UInt8 → Option (α × List UInt8)} {write : α → List UInt8}
    {as : List α} (h : ∀ a ∈ as, ∀ rest, read (write a ++ rest) = some (a, rest))
    (rest : List UInt8) :
    readTimes read as.length (as.flatMap write ++ rest) = some (as, rest) := by
  induction as with
  | nil => rfl
  | cons a as ih =>
    obtain ⟨ha, has⟩ := List.forall_mem_cons.1 h
    simp only [List.length_cons, List.flatMap_cons, List.append_assoc, readTimes, ha,
      Option.bind_some, ih has, Option.map_some]

/-- If a second reader finds what a first one finds when more bytes follow, it does so again and
again. -/
theorem readTimes_append {read read' : List UInt8 → Option (α × List UInt8)} {more : List UInt8}
    (h : ∀ s a rest, read s = some (a, rest) → read' (s ++ more) = some (a, rest ++ more)) {n : Nat}
    {s : List UInt8} {as : List α} {rest : List UInt8}
    (hread : readTimes read n s = some (as, rest)) :
    readTimes read' n (s ++ more) = some (as, rest ++ more) := by
  induction n generalizing s as with
  | zero =>
    cases hread
    rfl
  | succ n ih =>
    obtain ⟨⟨a, s'⟩, ha, hread⟩ := Option.bind_eq_some_iff.1 hread
    obtain ⟨⟨as', s''⟩, has, heq⟩ := Option.map_eq_some_iff.1 hread
    cases heq
    simp only [readTimes, h _ _ _ ha, Option.bind_some, ih has, Option.map_some]

namespace Codec

/-! ### Whole values -/

/-- A value that was written is read back as a whole. -/
theorem read_write_self (c : Codec α) (a : α) : c.read (c.write a) = some (a, []) := by
  have h := c.read_write a []
  rwa [List.append_nil] at h

/-- A proper beginning of what was written reads as nothing: reading it would take the same bytes as
reading the whole, which are more than there are. -/
theorem read_eq_none_of_prefix (c : Codec α) {a : α} {s more : List UInt8}
    (h : s ++ more = c.write a) (hmore : more ≠ []) : c.read s = none := by
  cases hs : c.read s with
  | none => rfl
  | some found =>
    have hw := c.read_append s found.1 found.2 more hs
    rw [h, c.read_write_self] at hw
    have hrest : found.2 ++ more = [] := (congrArg Prod.snd (Option.some.inj hw)).symm
    exact absurd (List.append_eq_nil_iff.1 hrest).2 hmore

/-- If there is more than one value, each takes some bytes. -/
theorem write_ne_nil (c : Codec α) {a b : α} (h : a ≠ b) : c.write a ≠ [] := by
  intro hnil
  have hread := c.read_write a (c.write b)
  rw [hnil, List.nil_append, c.read_write_self] at hread
  exact h (congrArg Prod.fst (Option.some.inj hread)).symm

/-! ### Combinations -/

def pair (c : Codec α) (d : Codec β) : Codec (α × β) where
  write p := c.write p.1 ++ d.write p.2
  read s := (c.read s).bind fun (a, s) => (d.read s).map fun (b, s) => ((a, b), s)
  read_write p rest := by
    simp only [List.append_assoc, c.read_write, Option.bind_some, d.read_write, Option.map_some]
  read_append s p rest more h := by
    obtain ⟨⟨a, s'⟩, ha, h⟩ := Option.bind_eq_some_iff.1 h
    obtain ⟨⟨b, s''⟩, hb, heq⟩ := Option.map_eq_some_iff.1 h
    cases heq
    simp only [c.read_append _ _ _ more ha, Option.bind_some, d.read_append _ _ _ more hb,
      Option.map_some]

/-- Values that are taken apart into values of another kind, which are written; what is read is put
together again if it can be. -/
def recast (c : Codec α) (apart : β → α) (together? : α → Option β)
    (together?_apart : ∀ b, together? (apart b) = some b) : Codec β where
  write b := c.write (apart b)
  read s := (c.read s).bind fun (a, s) => (together? a).map (·, s)
  read_write b rest := by
    simp only [c.read_write, Option.bind_some, together?_apart, Option.map_some]
  read_append s b rest more h := by
    obtain ⟨⟨a, s'⟩, ha, h⟩ := Option.bind_eq_some_iff.1 h
    obtain ⟨b', hb, heq⟩ := Option.map_eq_some_iff.1 h
    cases heq
    simp only [c.read_append _ _ _ more ha, Option.bind_some, hb, Option.map_some]

/-- The number of elements, then the elements. -/
def list (count : Codec Nat) (c : Codec α) : Codec (List α) where
  write as := count.write as.length ++ as.flatMap c.write
  read s := (count.read s).bind fun (n, s) => readTimes c.read n s
  read_write as rest := by
    have hread : readTimes c.read as.length (as.flatMap c.write ++ rest) = some (as, rest) :=
      readTimes_flatMap (fun a _ => c.read_write a) rest
    simp only [List.append_assoc, count.read_write, Option.bind_some, hread]
  read_append s as rest more h := by
    obtain ⟨⟨n, s'⟩, hn, h⟩ := Option.bind_eq_some_iff.1 h
    have hread := readTimes_append (fun s a rest => c.read_append s a rest more) h
    simp only [count.read_append _ _ _ more hn, Option.bind_some, hread]

end Codec

end ReplicaRing
