import ReplicaRing.Hash.XxHash64
import ReplicaRing.Text.Hex

/-!
# Versions of a ring

A ring is known by the hash of its name. Each of its versions carries the version of the
configuration it was built from and counts the instances built from that configuration. Versions of
one ring are ordered, versions of different rings are not.
-/

namespace ReplicaRing

/-- One version of one ring. -/
structure RingVersion where
  ringId : UInt64
  config : UInt64
  instanceNumber : UInt64
deriving DecidableEq

namespace RingVersion

def idOfName (name : String) : UInt64 :=
  XxHash64.hash name.toUTF8.toList

def idText (id : UInt64) : String :=
  Text.hex 16 id.toNat

/-- The ring identifier, the configuration version and the instance version. -/
def text (v : RingVersion) : String :=
  idText v.ringId ++ ":" ++ toString v.config.toNat ++ ":" ++ toString v.instanceNumber.toNat

/-- The order of two versions of one ring: by configuration, then by instance. Versions of different
rings have none. -/
def compare? (a b : RingVersion) : Option Ordering :=
  if a.ringId = b.ringId then
    some ((compare a.config b.config).then (compare a.instanceNumber b.instanceNumber))
  else none

/-- An order of all versions, used where they are listed: by ring identifier first. -/
def listingOrder (a b : RingVersion) : Ordering :=
  (compare a.ringId b.ringId).then
    ((compare a.config b.config).then (compare a.instanceNumber b.instanceNumber))

end RingVersion

end ReplicaRing
