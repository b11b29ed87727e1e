/-!
# The hash xxHash64

Keys are spread over the identifier space by xxHash64 with seed 0. The bytes are read as
little-endian words: groups of four words go through four accumulators side by side, what is left
over is mixed in word by word, half a word and byte by byte, and the result is scrambled so that
every input bit reaches every output bit. All arithmetic is modulo `2 ^ 64`.
-/

namespace ReplicaRing.XxHash64

def prime1 : UInt64 := 11400714785074694791
def prime2 : UInt64 := 14029467366897019727
def prime3 : UInt64 := 1609587929392839161
def prime4 : UInt64 := 9650029242287828579
def prime5 : UInt64 := 2870177450012600261

/-- Rotates a word to the left by `n` bits, `0 < n < 64`. -/
def rotateLeft (x n : UInt64) : UInt64 :=
  (x <<< n) ||| (x >>> (64 - n))

/-- The number whose digits in base 256 are the bytes, least significant first. -/
def littleEndian (bytes : List UInt8) : UInt64 :=
  bytes.foldr (fun b n => (n <<< 8) ||| b.toUInt64) 0

/-- The whole words at the front of a list of bytes, and the up to seven bytes left over. -/
def splitWords : List UInt8 → List UInt64 × List UInt8
  | a :: b :: c :: d :: e :: f :: g :: h :: rest =>
    let (words, tail) := splitWords rest
    (littleEndian [a, b, c, d, e, f, g, h] :: words, tail)
  | tail => ([], tail)

/-- Mixes one word into an accumulator. -/
def mix (acc word : UInt64) : UInt64 :=
  rotateLeft (acc + word * prime2) 31 * prime1

structure Lanes where
  a : UInt64
  b : UInt64
  c : UInt64
  d : UInt64

def Lanes.start : Lanes :=
  ⟨prime1 + prime2, prime2, 0, 0 - prime1⟩

def absorb (hash lane : UInt64) : UInt64 :=
  (hash ^^^ mix 0 lane) * prime1 + prime4

/-- The hash that the accumulators amount to. -/
def Lanes.collapse (l : Lanes) : UInt64 :=
  let hash := rotateLeft l.a 1 + rotateLeft l.b 7 + rotateLeft l.c 12 + rotateLeft l.d 18
  [l.a, l.b, l.c, l.d].foldl absorb hash

/-- Feeds the words to the accumulators four at a time; up to three words are left over. -/
def Lanes.feed (l : Lanes) : List UInt64 → Lanes × List UInt64
  | w :: x :: y :: z :: rest =>
    Lanes.feed ⟨mix l.a w, mix l.b x, mix l.c y, mix l.d z⟩ rest
  | rest => (l, rest)

def absorbWord (hash word : UInt64) : UInt64 :=
  rotateLeft (hash ^^^ mix 0 word) 27 * prime1 + prime4

def absorbByte (hash : UInt64) (byte : UInt8) : UInt64 :=
  rotateLeft (hash ^^^ (byte.toUInt64 * prime5)) 11 * prime1

/-- Mixes the up to seven left-over bytes into the hash: the first four at once if there are as
many, the others one by one. -/
def absorbTail (hash : UInt64) : List UInt8 → UInt64
  | a :: b :: c :: d :: rest =>
    let half := littleEndian [a, b, c, d]
    rest.foldl absorbByte (rotateLeft (hash ^^^ (half * prime1)) 23 * prime2 + prime3)
  | rest => rest.foldl absorbByte hash

/-- Spreads every bit over the whole word. -/
def scramble (hash : UInt64) : UInt64 :=
  let hash := (hash ^^^ (hash >>> 33)) * prime2
  let hash := (hash ^^^ (hash >>> 29)) * prime3
  hash ^^^ (hash >>> 32)

/-- The hash of a list of bytes, with seed 0. -/
def hash (bytes : List UInt8) : UInt64 :=
  let (words, tail) := splitWords bytes
  let (lanes, left) := Lanes.start.feed words
  -- The accumulators count only if they were fed at all.
  let base := if 4 ≤ words.length then lanes.collapse else prime5
  scramble (absorbTail (left.foldl absorbWord (base + UInt64.ofNat bytes.length)) tail)

example : hash [] = 17241709254077376921 := by decide +kernel

end ReplicaRing.XxHash64
