import ReplicaRing.Proofs.Results
import ReplicaRing.Topology
import Mathlib.Data.List.Nodup
import Mathlib.Data.List.Pairwise

/-!
# Nodes below nodes, and their index

The nodes at or below a node are the node itself and those at or below its children
(`Node.mem_nodes_iff`). Entering them into an index succeeds only if their ids differ from one
another and from all that were entered before (`Node.entered_of_enterAll`). So in a topology a node
is known by its id (`Topology.node_eq_ok_iff`, `Topology.eq_of_id_eq`), and what lies below one
child of a node does not lie below another (`Topology.eq_of_below`).
-/

namespace ReplicaRing

namespace Node

/-! ### Nodes at or below a node -/

theorem nodesOfAll_eq_flatMap (nodes : List Node) :
    nodesOfAll nodes = nodes.flatMap Node.nodes := by
  induction nodes with
  | nil => rfl
  | cons node rest ih => rw [nodesOfAll, ih, List.flatMap_cons]

theorem nodes_eq_cons (node : Node) : node.nodes = node :: node.children.flatMap Node.nodes := by
  cases node with
  | server id => rfl
  | group id nodeClass below =>
    rw [nodes, nodesOfAll_eq_flatMap]
    rfl

theorem mem_nodes_iff {n node : Node} :
    n ∈ node.nodes ↔ n = node ∨ ∃ child ∈ node.children, n ∈ child.nodes := by
  rw [nodes_eq_cons, List.mem_cons, List.mem_flatMap]

theorem self_mem_nodes (node : Node) : node ∈ node.nodes :=
  mem_nodes_iff.2 (Or.inl rfl)

theorem mem_nodes_of_child {n child node : Node} (hchild : child ∈ node.children)
    (hn : n ∈ child.nodes) : n ∈ node.nodes :=
  mem_nodes_iff.2 (Or.inr ⟨child, hchild, hn⟩)

theorem nodes_sublist_flatMap {child : Node} {children : List Node} (hchild : child ∈ children) :
    child.nodes.Sublist (children.flatMap Node.nodes) := by
  rw [List.flatMap_def]
  exact List.sublist_flatten_of_mem (List.mem_map_of_mem hchild)

/-- What lies below a node comes among the nodes of every node above, in the same order. -/
theorem nodes_sublist {n node : Node} (hn : n ∈ node.nodes) : n.nodes.Sublist node.nodes := by
  induction node using induct with
  | server id =>
    obtain rfl := List.mem_singleton.1 hn
    exact List.Sublist.refl _
  | group id nodeClass children ih =>
    rcases mem_nodes_iff.1 hn with rfl | ⟨child, hchild, hn⟩
    · exact List.Sublist.refl _
    · rw [nodes_eq_cons (.group id nodeClass children)]
      exact ((ih child hchild hn).trans (nodes_sublist_flatMap hchild)).cons _

theorem mem_nodes_trans {a b c : Node} (hab : a ∈ b.nodes) (hbc : b ∈ c.nodes) : a ∈ c.nodes :=
  (nodes_sublist hbc).subset hab

theorem length_nodes_lt {child node : Node} (hchild : child ∈ node.children) :
    child.nodes.length < node.nodes.length := by
  have := (nodes_sublist_flatMap hchild).length_le
  rw [nodes_eq_cons node, List.length_cons]
  omega

/-- No node lies below itself. -/
theorem ne_of_mem_child {node child x : Node} (hchild : child ∈ node.children)
    (hx : x ∈ child.nodes) : x ≠ node := by
  rintro rfl
  have hle := (nodes_sublist hx).length_le
  have hlt := length_nodes_lt hchild
  omega

theorem children_sublist (children : List Node) :
    children.Sublist (children.flatMap Node.nodes) := by
  induction children with
  | nil => exact List.Sublist.refl _
  | cons child rest ih =>
    rw [List.flatMap_cons, nodes_eq_cons child, List.cons_append]
    exact (ih.trans (List.sublist_append_right ..)).cons_cons child

/-! ### Ways down -/

/-- A server is reached from a node through nodes that all satisfy `keep`, both ends included. -/
inductive LeadsTo (keep : Node → Bool) : Node → NodeId → Prop
  | server {id : NodeId} (kept : keep (.server id) = true) : LeadsTo keep (.server id) id
  | group {id : NodeId} {nodeClass : NodeClass} {children : List Node} {child : Node}
    {server : NodeId} (kept : keep (.group id nodeClass children) = true)
    (mem : child ∈ children) (rest : LeadsTo keep child server) :
    LeadsTo keep (.group id nodeClass children) server

variable {keep : Node → Bool}

theorem reachesFromAny_eq_any (wanted : NodeId → Bool) (nodes : List Node) :
    reachesFromAny keep wanted nodes = nodes.any (·.reaches keep wanted) := by
  induction nodes with
  | nil => rfl
  | cons node rest ih => rw [reachesFromAny, ih, List.any_cons]

theorem reaches_eq_true_iff {wanted : NodeId → Bool} {node : Node} :
    node.reaches keep wanted = true ↔
      ∃ server, node.LeadsTo keep server ∧ wanted server = true := by
  induction node using induct with
  | server id =>
    rw [reaches, Bool.and_eq_true]
    constructor
    · rintro ⟨hkept, hwanted⟩
      exact ⟨id, .server hkept, hwanted⟩
    · rintro ⟨_, ⟨hkept⟩, hwanted⟩
      exact ⟨hkept, hwanted⟩
  | group id nodeClass children ih =>
    rw [reaches, reachesFromAny_eq_any, Bool.and_eq_true, List.any_eq_true]
    constructor
    · rintro ⟨hkept, child, hchild, hreaches⟩
      obtain ⟨server, hleads, hwanted⟩ := (ih child hchild).1 hreaches
      exact ⟨server, .group hkept hchild hleads, hwanted⟩
    · rintro ⟨server, hleads, hwanted⟩
      cases hleads with
      | group hkept hchild hrest =>
        exact ⟨hkept, _, hchild, (ih _ hchild).2 ⟨server, hrest, hwanted⟩⟩

theorem LeadsTo.kept {node : Node} {server : NodeId} (h : node.LeadsTo keep server) :
    keep node = true := by
  cases h with
  | server hkept => exact hkept
  | group hkept => exact hkept

theorem LeadsTo.mem_nodes {node : Node} {server : NodeId} (h : node.LeadsTo keep server) :
    .server server ∈ node.nodes := by
  induction h with
  | server _ => exact self_mem_nodes _
  | group _ hchild _ ih => exact mem_nodes_of_child hchild ih

/-- A node is reached from another one through nodes that all satisfy `keep`, both ends included. -/
inductive Passes (keep : Node → Bool) (start : Node) : Node → Prop
  | start (kept : keep start = true) : Passes keep start start
  | down {node child : Node} (way : Passes keep start node) (mem : child ∈ node.children)
    (kept : keep child = true) : Passes keep start child

theorem LeadsTo.of_child {node child : Node} {server : NodeId} (hkept : keep node = true)
    (hchild : child ∈ node.children) (h : child.LeadsTo keep server) :
    node.LeadsTo keep server := by
  cases node with
  | server id => cases hchild
  | group id nodeClass children => exact .group hkept hchild h

theorem Passes.kept {start node : Node} (h : start.Passes keep node) : keep node = true := by
  cases h with
  | start hkept => exact hkept
  | down _ _ hkept => exact hkept

theorem Passes.mem_nodes {start node : Node} (h : start.Passes keep node) : node ∈ start.nodes := by
  induction h with
  | start _ => exact self_mem_nodes _
  | down _ hchild _ ih => exact mem_nodes_trans (mem_nodes_of_child hchild (self_mem_nodes _)) ih

/-! ### Entering nodes into an index -/

/-- All nodes of a list were entered into an index, under ids that were new. -/
structure Entered (nodes : List Node) (index index' : NodeIndex) : Prop where
  nodup : (nodes.map id).Nodup
  fresh : ∀ n ∈ nodes, index[n.id]? = none
  find : ∀ (i : NodeId) (n : Node), index'[i]? = some n ↔ index[i]? = some n ∨ n ∈ nodes ∧ n.id = i
  size : index'.size = index.size + nodes.length

theorem Entered.nil (index : NodeIndex) : Entered [] index index :=
  ⟨List.nodup_nil, by simp, by simp, rfl⟩

theorem Entered.append {nodes more : List Node} {index index' index'' : NodeIndex}
    (h : Entered nodes index index') (h' : Entered more index' index'') :
    Entered (nodes ++ more) index index'' where
  nodup := by
    rw [List.map_append, List.nodup_append]
    refine ⟨h.nodup, h'.nodup, ?_⟩
    intro i hi j hj heq
    obtain ⟨n, hn, rfl⟩ := List.mem_map.1 hi
    obtain ⟨m, hm, rfl⟩ := List.mem_map.1 hj
    have hfresh := h'.fresh m hm
    rw [← heq, (h.find n.id n).2 (Or.inr ⟨hn, rfl⟩)] at hfresh
    cases hfresh
  fresh n hn := by
    rcases List.mem_append.1 hn with hn | hn
    · exact h.fresh n hn
    · cases hindex : index[n.id]? with
      | none => rfl
      | some m =>
        have hfresh := h'.fresh n hn
        rw [(h.find n.id m).2 (Or.inl hindex)] at hfresh
        cases hfresh
  find i n := by
    rw [h'.find, h.find, List.mem_append]
    tauto
  size := by
    rw [h'.size, h.size, List.length_append]
    omega

theorem entered_of_enter {node : Node} {index index' : NodeIndex}
    (h : node.enter index = .ok index') : Entered [node] index index' := by
  unfold enter at h
  split at h
  · cases h
  · split at h
    · cases h
    · split at h
      · cases h
      · rename_i hfresh
        obtain rfl := Except.ok.inj h
        have hnone : index[node.id]? = none := by
          rw [Std.ExtTreeMap.getElem?_eq_none]
          rwa [← Std.ExtTreeMap.contains_iff_mem]
        refine ⟨by simp, by simpa using hnone, fun i n => ?_, ?_⟩
        · by_cases hi : node.id = i
          · subst hi
            rw [Std.ExtTreeMap.getElem?_insert_self, hnone, Option.some_inj, List.mem_singleton]
            constructor
            · rintro rfl
              exact Or.inr ⟨rfl, rfl⟩
            · rintro (hfound | ⟨rfl, -⟩)
              · cases hfound
              · rfl
          · have hne : compare node.id i ≠ .eq := fun heq => hi (Std.LawfulEqCmp.eq_of_compare heq)
            rw [Std.ExtTreeMap.getElem?_insert, if_neg hne]
            simp only [List.mem_singleton]
            constructor
            · exact Or.inl
            · rintro (hfound | ⟨rfl, hid⟩)
              · exact hfound
              · exact absurd hid hi
        · rw [Std.ExtTreeMap.size_insert, if_neg (by simpa using hfresh)]
          rfl

/-- Enters single nodes into an index, one after the other. -/
def enterAll (nodes : List Node) (index : NodeIndex) : Except TopologyDefect NodeIndex :=
  nodes.foldlM (fun index node => node.enter index) index

theorem enterAll_cons (node : Node) (rest : List Node) (index : NodeIndex) :
    enterAll (node :: rest) index = (node.enter index).bind (enterAll rest) :=
  List.foldlM_cons

theorem enterAll_append (nodes more : List Node) (index : NodeIndex) :
    enterAll (nodes ++ more) index = (enterAll nodes index).bind (enterAll more) :=
  List.foldlM_append

theorem registerAll_eq_enterAll {nodes : List Node}
    (h : ∀ node ∈ nodes, ∀ index, node.register index = enterAll node.nodes index)
    (index : NodeIndex) : registerAll nodes index = enterAll (nodes.flatMap Node.nodes) index := by
  induction nodes generalizing index with
  | nil => rfl
  | cons node rest ih =>
    obtain ⟨hnode, hrest⟩ := List.forall_mem_cons.1 h
    rw [registerAll, List.flatMap_cons, enterAll_append, hnode, funext (ih hrest)]

/-- A node is registered by entering it and everything below it, depth first. -/
theorem register_eq_enterAll (node : Node) (index : NodeIndex) :
    node.register index = enterAll node.nodes index := by
  induction node using induct generalizing index with
  | server id =>
    rw [register, nodes, enterAll_cons]
    exact (bind_pure ((Node.server id).enter index)).symm
  | group id nodeClass children ih =>
    rw [register, nodes_eq_cons, enterAll_cons, funext (registerAll_eq_enterAll ih)]
    rfl

theorem entered_of_enterAll {nodes : List Node} {index index' : NodeIndex}
    (h : enterAll nodes index = .ok index') : Entered nodes index index' := by
  induction nodes generalizing index with
  | nil =>
    obtain rfl := Except.ok.inj h
    exact .nil index
  | cons node rest ih =>
    rw [enterAll_cons] at h
    obtain ⟨mid, henter, hrest⟩ := bind_eq_ok.1 h
    exact (entered_of_enter henter).append (ih hrest)

end Node

/-! ### Topologies -/

namespace Topology

variable {t : Topology}

theorem entered (t : Topology) : Node.Entered t.root.nodes ∅ t.index :=
  Node.entered_of_enterAll ((Node.register_eq_enterAll ..).symm.trans t.registered)

theorem eq_of_id_eq {m n : Node} (hm : m ∈ t.root.nodes) (hn : n ∈ t.root.nodes)
    (hid : m.id = n.id) : m = n :=
  List.inj_on_of_nodup_map t.entered.nodup hm hn hid

theorem node_eq_ok_iff {id : NodeId} {n : Node} :
    t.node id = .ok n ↔ n ∈ t.root.nodes ∧ n.id = id := by
  have hfind := t.entered.find id n
  rw [Std.ExtTreeMap.getElem?_empty, or_iff_right (Option.some_ne_none n).symm] at hfind
  rw [← hfind]
  unfold node find?
  cases t.index[id]? <;> simp

theorem size_eq (t : Topology) : t.size = t.root.nodes.length := by
  have hsize := t.entered.size
  rwa [Std.ExtTreeMap.size_empty, Nat.zero_add] at hsize

theorem mem_nodes_of_child {v child : Node} (hv : v ∈ t.root.nodes) (hchild : child ∈ v.children) :
    child ∈ t.root.nodes :=
  Node.mem_nodes_trans (Node.mem_nodes_of_child hchild child.self_mem_nodes) hv

theorem nodup_below {v : Node} (hv : v ∈ t.root.nodes) :
    ((v.children.flatMap Node.nodes).map Node.id).Nodup := by
  have hnodup := t.entered.nodup.sublist ((Node.nodes_sublist hv).map Node.id)
  rw [Node.nodes_eq_cons, List.map_cons, List.nodup_cons] at hnodup
  exact hnodup.2

theorem nodup_children {v : Node} (hv : v ∈ t.root.nodes) : (v.children.map Node.id).Nodup :=
  (nodup_below hv).sublist ((Node.children_sublist _).map Node.id)

/-- What lies below one child of a node does not lie below another. -/
theorem eq_of_below {v a b n : Node} (hv : v ∈ t.root.nodes) (ha : a ∈ v.children)
    (hb : b ∈ v.children) (hna : n ∈ a.nodes) (hnb : n ∈ b.nodes) : a = b := by
  by_contra hne
  have hapart := (List.nodup_flatMap.1 (nodup_below hv).of_map).2
  have : Std.Symm (Function.onFun List.Disjoint Node.nodes) := ⟨fun _ _ h => List.disjoint_symm h⟩
  exact hapart.forall ha hb hne hna hnb

end Topology

end ReplicaRing
