import ReplicaRing.Error

/-!
# Issuing versions

An issuer gives out versions for sets of keys, each newer than every version that it gave out for
any of the keys. A key that was never seen counts as if it held the version before the initial one.
-/

namespace ReplicaRing

/-- The initial version, and the last version given out for each key. -/
structure VersionIssuer (κ : Type) where
  initial : UInt64
  issued : List (κ × UInt64)

namespace VersionIssuer

variable {κ : Type} [DecidableEq κ]

/-- An issuer that has not given out anything. -/
def startingAt (initial : UInt64) : VersionIssuer κ :=
  ⟨initial, []⟩

def current? (c : VersionIssuer κ) (key : κ) : Option UInt64 :=
  (c.issued.find? fun entry => entry.1 = key).map Prod.snd

/-- The least version that is new for a key. -/
def candidate (c : VersionIssuer κ) (key : κ) : Except Error UInt64 :=
  match c.current? key with
  | none => .ok c.initial
  | some v => if v.toNat + 1 < UInt64.size then .ok (v + 1) else .error (.versionsExhausted v)

def record (c : VersionIssuer κ) (version : UInt64) (key : κ) : VersionIssuer κ :=
  { c with issued := (key, version) :: c.issued.filter fun entry => entry.1 ≠ key }

/-- The least version that is new for every key; the initial one if there are no keys. -/
def newest (c : VersionIssuer κ) : List κ → Except Error UInt64
  | [] => .ok c.initial
  | [key] => c.candidate key
  | key :: rest => do
    let v ← c.candidate key
    return max v (← c.newest rest)

/-- What a call for some keys answers, and the issuer that it leaves. The version is found before
anything is recorded, and then recorded for all of the keys. -/
def call (c : VersionIssuer κ) (keys : List κ) : Except Error UInt64 × VersionIssuer κ :=
  match c.newest keys with
  | .error e => (.error e, c)
  | .ok version => (.ok version, keys.foldl (fun c key => c.record version key) c)

/-- A version for some keys, and the issuer that has recorded it. -/
def next (c : VersionIssuer κ) (keys : List κ) : Except Error (UInt64 × VersionIssuer κ) :=
  (c.call keys).1.map fun version => (version, (c.call keys).2)

end VersionIssuer

end ReplicaRing
