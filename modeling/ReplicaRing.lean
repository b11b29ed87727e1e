import ReplicaRing.Convergence.Phase.Document
import ReplicaRing.Main
import ReplicaRing.Owners.Document
import ReplicaRing.Proofs.Documents
import ReplicaRing.Proofs.Issuing
import ReplicaRing.Proofs.Placement.Fallback
import ReplicaRing.Proofs.Placement.Refusals
import ReplicaRing.Proofs.ReplicaMaps.Superposing
import ReplicaRing.Proofs.Rings.Scans
import ReplicaRing.Proofs.Rings.Tilings
import ReplicaRing.Proofs.Snapshots
import ReplicaRing.Proofs.Topologies.Index
import ReplicaRing.Proofs.Trackers.Forgetting
import ReplicaRing.Proofs.Trackers.Quorums
import ReplicaRing.Proofs.Trackers.Recovering
import ReplicaRing.Proofs.Trackers.Sequences
import ReplicaRing.Proofs.Trees.Agreement
import ReplicaRing.Proofs.Trees.Gaps
import ReplicaRing.Proofs.Trees.Pruning
import ReplicaRing.Proofs.Trees.Rebuilding
import ReplicaRing.Proofs.Trees.Restriking
import ReplicaRing.Proofs.Trees.Seeding
import ReplicaRing.Proofs.Weights
import ReplicaRing.Region.Bounds
