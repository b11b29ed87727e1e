import ReplicaRing.Codec

/-!
# Binary formats

A `Format` writes the values that records are made of; whatever is put together from these with the
combinators for codecs can then be written in it. In `Format.fixed`, which is the one in use, all
numbers have a fixed width and start with their low byte.
-/

namespace ReplicaRing

/-- A way to write the values that records are made of. -/
structure Format where
  /-- Which of its variants a value is. -/
  variant : Codec UInt32
  word : Codec UInt64
  /-- Sizes of lists, and other numbers of things. -/
  count : Codec Nat
  string : Codec String

namespace Codec

/-! ### Numbers of a fixed width -/

/-- The least number that has more than `k` bytes. -/
def digitLimit : Nat → Nat
  | 0 => 1
  | k + 1 => 256 * digitLimit k

theorem digitLimit_pos (k : Nat) : 0 < digitLimit k := by
  induction k with
  | zero => exact Nat.one_pos
  | succ k ih => exact Nat.mul_pos (Nat.succ_pos 255) ih

/-- The `k` low bytes of a number, the lowest first. -/
def writeDigits : Nat → Nat → List UInt8
  | 0, _ => []
  | k + 1, n => UInt8.ofNat n :: writeDigits k (n / 256)

def readDigits : Nat → List UInt8 → Option (Nat × List UInt8)
  | 0, s => some (0, s)
  | _ + 1, [] => none
  | k + 1, b :: s => (readDigits k s).map fun (n, s) => (b.toNat + 256 * n, s)

theorem readDigits_writeDigits {k n : Nat} (h : n < digitLimit k) (rest : List UInt8) :
    readDigits k (writeDigits k n ++ rest) = some (n, rest) := by
  induction k generalizing n with
  | zero =>
    have : n = 0 := Nat.lt_one_iff.1 h
    subst this
    rfl
  | succ k ih =>
    have hhigh : n / 256 < digitLimit k := Nat.div_lt_of_lt_mul h
    have hlow : (UInt8.ofNat n).toNat = n % 256 := UInt8.toNat_ofNat'
    rw [writeDigits, List.cons_append, readDigits, ih hhigh, hlow]
    show some (n % 256 + 256 * (n / 256), rest) = some (n, rest)
    rw [Nat.mod_add_div]

theorem readDigits_append {k : Nat} {s : List UInt8} {n : Nat} {rest : List UInt8}
    (more : List UInt8) (h : readDigits k s = some (n, rest)) :
    readDigits k (s ++ more) = some (n, rest ++ more) := by
  induction k generalizing s n with
  | zero =>
    cases h
    rfl
  | succ k ih =>
    cases s with
    | nil => cases h
    | cons b s =>
      obtain ⟨⟨m, s'⟩, hm, heq⟩ := Option.map_eq_some_iff.1 h
      cases heq
      rw [List.cons_append, readDigits, ih hm]
      rfl

/-- The numbers of `k` bytes. -/
def digits (k : Nat) : Codec (Fin (digitLimit k)) where
  write n := writeDigits k n
  read s :=
    (readDigits k s).map fun (n, s) => (⟨n % digitLimit k, Nat.mod_lt n (digitLimit_pos k)⟩, s)
  read_write n rest := by
    simp only [readDigits_writeDigits n.isLt, Option.map_some, Nat.mod_eq_of_lt n.isLt, Fin.eta]
  read_append s n rest more h := by
    obtain ⟨⟨m, s'⟩, hm, heq⟩ := Option.map_eq_some_iff.1 h
    cases heq
    rw [readDigits_append more hm]
    rfl

def word32 : Codec UInt32 :=
  (digits 4).recast (fun w => ⟨w.toNat, w.toNat_lt⟩) (fun n => some (UInt32.ofNat n))
    (fun w => by rw [UInt32.ofNat_toNat])

def word64 : Codec UInt64 :=
  (digits 8).recast (fun w => ⟨w.toNat, w.toNat_lt⟩) (fun n => some (UInt64.ofNat n))
    (fun w => by rw [UInt64.ofNat_toNat])

/-! ### Numbers without a bound -/

/-- Seven bits in each byte, the low ones first; every byte but the last has its top bit set. The
number of bytes is at most `steps + 1`. -/
def writeNat : Nat → Nat → List UInt8
  | 0, n => [UInt8.ofNat (n % 128)]
  | steps + 1, n =>
    if n < 128 then [UInt8.ofNat n] else UInt8.ofNat (n % 128 + 128) :: writeNat steps (n / 128)

/-- Reads a number up to the first byte whose top bit is clear. -/
def readNat : List UInt8 → Option (Nat × List UInt8)
  | [] => none
  | b :: rest =>
    if b.toNat < 128 then some (b.toNat, rest)
    else (readNat rest).map fun (n, s) => (b.toNat - 128 + 128 * n, s)

theorem readNat_writeNat {steps n : Nat} (h : n ≤ steps) (rest : List UInt8) :
    readNat (writeNat steps n ++ rest) = some (n, rest) := by
  induction steps generalizing n with
  | zero =>
    have : n = 0 := by omega
    subst this
    rfl
  | succ steps ih =>
    rw [writeNat]
    split
    · rename_i hlt
      have hn : (UInt8.ofNat n).toNat = n := by
        rw [UInt8.toNat_ofNat']
        omega
      rw [List.singleton_append, readNat, hn, if_pos hlt]
    · rename_i hge
      -- The byte carries the low seven bits below its top bit; the rest is shorter by one byte.
      have hb : (UInt8.ofNat (n % 128 + 128)).toNat = n % 128 + 128 := by
        rw [UInt8.toNat_ofNat']
        omega
      rw [List.cons_append, readNat, hb, if_neg (by omega), ih (by omega)]
      simp only [Option.map_some, Option.some.injEq, Prod.mk.injEq, and_true]
      omega

theorem readNat_append {s : List UInt8} {n : Nat} {rest : List UInt8} (more : List UInt8)
    (h : readNat s = some (n, rest)) : readNat (s ++ more) = some (n, rest ++ more) := by
  induction s generalizing n with
  | nil => exact nomatch h
  | cons b s ih =>
    rw [readNat] at h
    rw [List.cons_append, readNat]
    split at h
    · rename_i hb
      cases h
      rw [if_pos hb]
    · rename_i hb
      rw [if_neg hb]
      obtain ⟨⟨m, rest'⟩, hm, heq⟩ := Option.map_eq_some_iff.1 h
      cases heq
      rw [ih hm]
      rfl

def nat : Codec Nat where
  write n := writeNat n n
  read := readNat
  read_write _ rest := readNat_writeNat (Nat.le_refl _) rest
  read_append _ _ _ more h := readNat_append more h

/-! ### Counts and text -/

/-- The word that no count in a word has. -/
def full : UInt64 :=
  UInt64.ofNat (UInt64.size - 1)

/-- A number of things is a word. Nothing in memory comes in such numbers that a word is too small;
for the law, the word `full` stands before a number that is. -/
def count : Codec Nat where
  write n :=
    if n < UInt64.size - 1 then word64.write (UInt64.ofNat n) else word64.write full ++ nat.write n
  read s :=
    (word64.read s).bind fun (w, s) => if w = full then nat.read s else some (w.toNat, s)
  read_write n rest := by
    by_cases h : n < UInt64.size - 1
    · have hword : (UInt64.ofNat n).toNat = n := UInt64.toNat_ofNat_of_lt' (by omega)
      have hfull : UInt64.ofNat n ≠ full := by
        intro heq
        have hn : n = UInt64.size - 1 := by rw [← hword, heq]; rfl
        omega
      rw [if_pos h, word64.read_write, Option.bind_some]
      dsimp only
      rw [if_neg hfull, hword]
    · rw [if_neg h, List.append_assoc, word64.read_write, Option.bind_some]
      dsimp only
      rw [if_pos rfl, nat.read_write]
  read_append s n rest more h := by
    obtain ⟨⟨w, s'⟩, hw, h⟩ := Option.bind_eq_some_iff.1 h
    rw [word64.read_append _ _ _ more hw, Option.bind_some]
    dsimp only at h ⊢
    split at h
    · rename_i hfull
      rw [if_pos hfull, nat.read_append _ _ _ more h]
    · rename_i hfull
      cases h
      rw [if_neg hfull]

def byte : Codec UInt8 where
  write b := [b]
  read
    | [] => none
    | b :: s => some (b, s)
  read_write _ _ := rfl
  read_append s b rest more h := by
    cases s with
    | nil => cases h
    | cons b' s =>
      cases h
      rfl

/-- A text in UTF-8, after the number of its bytes. -/
def string : Codec String :=
  (list count byte).recast (fun s => s.toByteArray.data.toList)
    (fun bytes => String.fromUTF8? ⟨bytes.toArray⟩)
    (fun s => by
      rw [Array.toArray_toList]
      exact dif_pos s.isValidUTF8)

end Codec

/-- The format in use. -/
def Format.fixed : Format where
  variant := Codec.word32
  word := Codec.word64
  count := Codec.count
  string := Codec.string

end ReplicaRing
