import ReplicaRing.Codec.Format
import ReplicaRing.Topology.Node

/-!
# Nodes as bytes

A node is written as its variant and then its fields in order, the children of a group after their
number. The reader goes down as many generations as there are bytes. That is deep enough for
everything that was written, because a node takes bytes of its own besides those of its children.
-/

namespace ReplicaRing.Format

variable (f : Format)

/-- Classes of nodes, by their places among all classes. -/
def nodeClass : Codec NodeClass :=
  f.variant.recast (fun c => UInt32.ofNat (NodeClass.every.idxOf c))
    (fun place => NodeClass.every[place.toNat]?) (fun c => by cases c <;> decide)

/-- The fields of a group up to the number of its children. -/
def groupHead : Codec (NodeId × NodeClass × Nat) :=
  f.string.pair (f.nodeClass.pair f.count)

mutual

def writeNode : Node → List UInt8
  | .server id => f.variant.write 0 ++ f.string.write id
  | .group id nodeClass children =>
    f.variant.write 1 ++ (f.groupHead.write (id, nodeClass, children.length) ++ writeNodes children)

def writeNodes : List Node → List UInt8
  | [] => []
  | node :: rest => writeNode node ++ writeNodes rest

end

/-- Reads a node with at most `depth` generations. -/
def readNode : Nat → List UInt8 → Option (Node × List UInt8)
  | 0, _ => none
  | depth + 1, s =>
    (f.variant.read s).bind fun (variant, s) =>
      if variant = 0 then (f.string.read s).map fun (id, s) => (.server id, s)
      else if variant = 1 then
        (f.groupHead.read s).bind fun ((id, nodeClass, n), s) =>
          (readTimes (readNode depth) n s).map fun (children, s) =>
            (.group id nodeClass children, s)
      else none

theorem writeNodes_eq_flatMap (nodes : List Node) :
    f.writeNodes nodes = nodes.flatMap f.writeNode := by
  induction nodes with
  | nil => rfl
  | cons node nodes ih => rw [writeNodes, ih, List.flatMap_cons]

theorem variant_length_pos (v : UInt32) : 0 < (f.variant.write v).length :=
  List.length_pos_iff.2 (f.variant.write_ne_nil (b := v + 1) (by simp))

theorem readNode_writeNode {node : Node} {depth : Nat} (h : (f.writeNode node).length ≤ depth)
    (rest : List UInt8) : f.readNode depth (f.writeNode node ++ rest) = some (node, rest) := by
  induction node using Node.induct generalizing depth rest with
  | server id =>
    have hvariant := f.variant_length_pos 0
    rw [writeNode, List.length_append] at h
    obtain ⟨n, rfl⟩ : ∃ n, depth = n + 1 := ⟨depth - 1, by omega⟩
    rw [writeNode, List.append_assoc, readNode, f.variant.read_write, Option.bind_some]
    simp only [if_pos, f.string.read_write, Option.map_some]
  | group id nodeClass children ih =>
    have hvariant := f.variant_length_pos 1
    rw [writeNode, writeNodes_eq_flatMap, List.length_append, List.length_append] at h
    obtain ⟨n, rfl⟩ : ∃ n, depth = n + 1 := ⟨depth - 1, by omega⟩
    -- Each child takes a part of the bytes after the variant, so it is not deeper than `n`.
    have hchildren : ∀ child ∈ children, ∀ rest,
        f.readNode n (f.writeNode child ++ rest) = some (child, rest) := by
      intro child hchild rest
      apply ih child hchild
      have hle : (f.writeNode child).length ≤ (children.flatMap f.writeNode).length := by
        rw [List.flatMap_def]
        exact (List.sublist_flatten_of_mem (List.mem_map_of_mem hchild)).length_le
      omega
    have hread := readTimes_flatMap hchildren rest
    rw [writeNode, writeNodes_eq_flatMap, List.append_assoc, List.append_assoc, readNode,
      f.variant.read_write, Option.bind_some]
    simp [f.groupHead.read_write, hread]

/-- Neither more bytes nor more generations change what is read. -/
theorem readNode_append {depth depth' : Nat} (hdepth : depth ≤ depth') {s : List UInt8} {node : Node}
    {rest : List UInt8} (more : List UInt8) (h : f.readNode depth s = some (node, rest)) :
    f.readNode depth' (s ++ more) = some (node, rest ++ more) := by
  induction depth generalizing depth' s node rest with
  | zero => cases h
  | succ depth ih =>
    obtain ⟨n, rfl⟩ : ∃ n, depth' = n + 1 := ⟨depth' - 1, by omega⟩
    rw [readNode] at h ⊢
    obtain ⟨⟨variant, s₁⟩, hvariant, h⟩ := Option.bind_eq_some_iff.1 h
    rw [f.variant.read_append _ _ _ more hvariant, Option.bind_some]
    dsimp only at h ⊢
    by_cases hserver : variant = 0
    · rw [if_pos hserver] at h ⊢
      obtain ⟨⟨id, s₂⟩, hid, heq⟩ := Option.map_eq_some_iff.1 h
      cases heq
      rw [f.string.read_append _ _ _ more hid]
      rfl
    · rw [if_neg hserver] at h ⊢
      by_cases hgroup : variant = 1
      · rw [if_pos hgroup] at h ⊢
        obtain ⟨⟨⟨id, nodeClass, m⟩, s₂⟩, hhead, h⟩ := Option.bind_eq_some_iff.1 h
        obtain ⟨⟨children, s₃⟩, hchildren, heq⟩ := Option.map_eq_some_iff.1 h
        cases heq
        have hread := readTimes_append
          (fun s node rest hs => ih (Nat.le_of_succ_le_succ hdepth) hs) hchildren
        rw [f.groupHead.read_append _ _ _ more hhead, Option.bind_some]
        dsimp only
        rw [hread]
        rfl
      · rw [if_neg hgroup] at h
        cases h

def node : Codec Node where
  write := f.writeNode
  read s := f.readNode s.length s
  read_write node rest := by
    apply f.readNode_writeNode
    rw [List.length_append]
    omega
  read_append s node rest more h := by
    apply f.readNode_append _ more h
    rw [List.length_append]
    omega

end ReplicaRing.Format
