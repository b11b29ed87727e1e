import ReplicaRing.Convergence.Phase
import ReplicaRing.Convergence.RingVersion
import ReplicaRing.Owners
import ReplicaRing.Sorting

/-!
# Stored phases

The store holds the phase of each participant of each ring version, at most one record for a pair. A
record that is saved takes the place of the pair's earlier one.
-/

namespace ReplicaRing

/-- A participant in the convergence of one ring version. -/
structure Participation where
  ring : RingVersion
  participant : NodeId
deriving DecidableEq

/-- The phase of a participant, as it is stored. -/
structure PhaseRecord where
  pair : Participation
  phase : Phase
deriving DecidableEq

/-- Records, at most one for each pair. -/
structure PhaseStore where
  records : List PhaseRecord
  distinct : (records.map PhaseRecord.pair).Nodup
deriving DecidableEq

namespace PhaseStore

def empty : PhaseStore where
  records := []
  distinct := List.nodup_nil

def phase? (s : PhaseStore) (pair : Participation) : Option Phase :=
  (s.records.find? fun r => r.pair = pair).map PhaseRecord.phase

/-- Any choice of records has at most one for each pair. -/
theorem distinct_filter (s : PhaseStore) (keep : PhaseRecord → Bool) :
    ((s.records.filter keep).map PhaseRecord.pair).Nodup :=
  s.distinct.sublist (List.filter_sublist.map _)

/-- The store with a record, in place of an earlier one for its pair. -/
def save (s : PhaseStore) (record : PhaseRecord) : PhaseStore where
  records := record :: s.records.filter fun r => r.pair ≠ record.pair
  distinct := by
    rw [List.map_cons, List.nodup_cons]
    refine ⟨fun h => ?_, s.distinct_filter _⟩
    obtain ⟨r, hr, heq⟩ := List.mem_map.1 h
    exact of_decide_eq_true (List.mem_filter.1 hr).2 heq

/-- The store without the records of a ring version. -/
def eraseRing (s : PhaseStore) (ring : RingVersion) : PhaseStore where
  records := s.records.filter fun r => r.pair.ring ≠ ring
  distinct := s.distinct_filter _

/-- The records sorted by ring version, then by participant. -/
def listing (s : PhaseStore) : List PhaseRecord :=
  sortBy (fun a b => ((RingVersion.listingOrder a.pair.ring b.pair.ring).then
    (compare a.pair.participant b.pair.participant)).isLE) s.records

end PhaseStore

end ReplicaRing
