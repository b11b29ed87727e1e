import ReplicaRing.Proofs.Topologies
import Mathlib.Data.List.Chain

/-!
# What the index knows

A tree can be indexed exactly if each of its nodes is sound by itself and no two of them share an id
(`Topology.exists_ofNode?_iff`). Otherwise the first node at fault is reported, in the order in
which the nodes are entered (`Topology.ofNode?_eq_error_iff`).

Which nodes are reached from a node is said in terms of the path that leads down to them. In a
topology there is one path from a node to each of those below it (`Topology.path_unique`).
-/

namespace ReplicaRing

namespace Node

variable {start stop child : Node} {path : List Node} {nodes : List Node} {index index' : NodeIndex}
  {defect : TopologyDefect} {taken : List NodeId}

/-! ### Which nodes can be entered -/

/-- What is asked of a node whatever the other nodes are. -/
structure Sound (node : Node) : Prop where
  named : node.id ≠ ""
  /-- A group does not pass for a server. -/
  classed : node.isServer = false → node.nodeClass ≠ .server

instance (node : Node) : Decidable node.Sound :=
  decidable_of_iff (node.id ≠ "" ∧ (node.isServer = false → node.nodeClass ≠ .server))
    ⟨fun h => ⟨h.1, h.2⟩, fun h => ⟨h.named, h.classed⟩⟩

/-- What is wrong with a node that is entered when some ids are taken. -/
def defect? (node : Node) (taken : List NodeId) : Option TopologyDefect :=
  if node.id = "" then some .emptyId
  else if node.isServer = false ∧ node.nodeClass = .server then
    some (.groupWithServerClass node.id)
  else if node.id ∈ taken then some (.duplicateId node.id)
  else none

theorem defect?_eq_none {node : Node} :
    node.defect? taken = none ↔ node.Sound ∧ node.id ∉ taken := by
  unfold defect?
  constructor
  · intro h
    split at h
    · cases h
    · rename_i hnamed
      split at h
      · cases h
      · rename_i hclassed
        split at h
        · cases h
        · rename_i hfresh
          exact ⟨⟨hnamed, fun hgroup hclass => hclassed ⟨hgroup, hclass⟩⟩, hfresh⟩
  · rintro ⟨hsound, hfresh⟩
    rw [if_neg hsound.named, if_neg fun h => hsound.classed h.1 h.2, if_neg hfresh]

theorem enter_eq {node : Node} (htaken : ∀ id, index.contains id = true ↔ id ∈ taken) :
    node.enter index = match node.defect? taken with
      | some defect => .error defect
      | none => .ok (index.insert node.id node) := by
  unfold enter defect?
  have hempty : node.id.isEmpty = true ↔ node.id = "" := String.isEmpty_iff
  have hclass : (!node.isServer && decide (node.nodeClass = .server)) = true ↔
      node.isServer = false ∧ node.nodeClass = .server := by simp
  simp only [hempty, hclass, htaken]
  split
  · rfl
  · split
    · rfl
    · split <;> rfl

theorem contains_of_enterAll (h : enterAll nodes ∅ = .ok index) (id : NodeId) :
    index.contains id = true ↔ id ∈ nodes.map Node.id := by
  have hfind := (entered_of_enterAll h).find
  rw [Std.ExtTreeMap.contains_iff_mem, Std.ExtTreeMap.mem_iff_isSome_getElem?,
    Option.isSome_iff_exists, List.mem_map]
  simp [hfind]

theorem enterAll_concat {before : List Node} (hbefore : enterAll before ∅ = .ok index)
    (node : Node) : enterAll (before ++ [node]) ∅ = match node.defect? (before.map Node.id) with
      | some defect => .error defect
      | none => .ok (index.insert node.id node) := by
  rw [enterAll_append, hbefore, ← enter_eq (contains_of_enterAll hbefore)]
  exact (enterAll_cons ..).trans (bind_pure (node.enter index))

/-- Nodes can be entered one after the other if all are sound and no two share an id. -/
theorem exists_enterAll_iff : (∃ index, enterAll nodes ∅ = .ok index) ↔
    (∀ node ∈ nodes, node.Sound) ∧ (nodes.map Node.id).Nodup := by
  induction nodes using List.reverseRecOn with
  | nil => exact ⟨fun _ => ⟨by simp, List.nodup_nil⟩, fun _ => ⟨∅, rfl⟩⟩
  | append_singleton before node ih =>
    have hlast : (∃ index, enterAll (before ++ [node]) ∅ = .ok index) ↔
        (∃ index, enterAll before ∅ = .ok index) ∧ node.defect? (before.map Node.id) = none := by
      cases hbefore : enterAll before ∅ with
      | error defect => simp [enterAll_append, hbefore, Except.bind]
      | ok mid =>
        rw [enterAll_concat hbefore]
        cases node.defect? (before.map Node.id) <;> simp
    rw [hlast, ih, defect?_eq_none, List.forall_mem_append, List.forall_mem_singleton,
      List.map_append, List.map_singleton, ← List.concat_eq_append, List.nodup_concat]
    tauto

/-- The first node at fault is reported. It is told apart from those before it, which were all
entered. -/
theorem enterAll_eq_error_iff : enterAll nodes ∅ = .error defect ↔
    ∃ before node after, nodes = before ++ node :: after ∧
      (∃ index, enterAll before ∅ = .ok index) ∧
      node.defect? (before.map Node.id) = some defect := by
  constructor
  · intro h
    induction nodes using List.reverseRecOn with
    | nil => cases h
    | append_singleton before node ih =>
      cases hbefore : enterAll before ∅ with
      | error other =>
        rw [enterAll_append, hbefore] at h
        obtain rfl := Except.error.inj h
        obtain ⟨first, faulty, rest, rfl, hfault⟩ := ih hbefore
        exact ⟨first, faulty, rest ++ [node], by simp, hfault⟩
      | ok mid =>
        rw [enterAll_concat hbefore] at h
        cases hdefect : node.defect? (before.map Node.id) with
        | none => simp [hdefect] at h
        | some other =>
          rw [hdefect] at h
          obtain rfl := Except.error.inj h
          exact ⟨before, node, [], rfl, ⟨mid, hbefore⟩, hdefect⟩
  · rintro ⟨before, node, after, rfl, ⟨index, hbefore⟩, hdefect⟩
    have hfault := enterAll_concat hbefore node
    rw [hdefect] at hfault
    rw [← List.singleton_append, ← List.append_assoc, enterAll_append, hfault]
    rfl

/-! ### Paths -/

/-- A path leads from a node to one at or below it, from child to child, both ends included. -/
structure IsPath (start stop : Node) (path : List Node) : Prop where
  first : path.head? = some start
  last : path.getLast? = some stop
  down : path.IsChain fun node child => child ∈ node.children

/-- A path ends at once or goes on at a child. -/
theorem isPath_iff : start.IsPath stop path ↔ path = [start] ∧ stop = start ∨
    ∃ child ∈ start.children, ∃ rest, path = start :: rest ∧ child.IsPath stop rest := by
  constructor
  · rintro ⟨hfirst, hlast, hdown⟩
    match path, hfirst with
    | node :: rest, hfirst =>
      obtain rfl := Option.some.inj hfirst
      cases rest with
      | nil => exact Or.inl ⟨rfl, (Option.some.inj hlast).symm⟩
      | cons child rest =>
        rw [List.isChain_cons_cons] at hdown
        rw [List.getLast?_cons_cons] at hlast
        exact Or.inr ⟨child, hdown.1, child :: rest, rfl, rfl, hlast, hdown.2⟩
  · rintro (⟨rfl, rfl⟩ | ⟨child, hchild, rest, rfl, hfirst, hlast, hdown⟩)
    · exact ⟨rfl, rfl, .singleton _⟩
    · match rest, hfirst with
      | node :: rest, hfirst =>
        obtain rfl := Option.some.inj hfirst
        exact ⟨rfl, List.getLast?_cons_cons.trans hlast, List.isChain_cons_cons.2 ⟨hchild, hdown⟩⟩

theorem isPath_self (node : Node) : node.IsPath node [node] :=
  isPath_iff.2 (Or.inl ⟨rfl, rfl⟩)

theorem IsPath.above (h : child.IsPath stop path) (hchild : child ∈ start.children) :
    start.IsPath stop (start :: path) :=
  isPath_iff.2 (Or.inr ⟨child, hchild, path, rfl, h⟩)

theorem IsPath.mem_nodes (h : start.IsPath stop path) : stop ∈ start.nodes := by
  induction path generalizing start with
  | nil => cases h.first
  | cons node rest ih =>
    rcases isPath_iff.1 h with ⟨-, rfl⟩ | ⟨child, hchild, rest', hpath, hrest⟩
    · exact self_mem_nodes _
    · obtain ⟨-, rfl⟩ := List.cons.inj hpath
      exact mem_nodes_of_child hchild (ih hrest)

theorem exists_path (h : stop ∈ start.nodes) : ∃ path, start.IsPath stop path := by
  induction start using induct with
  | server id =>
    obtain rfl := List.mem_singleton.1 h
    exact ⟨_, isPath_self _⟩
  | group id nodeClass children ih =>
    rcases mem_nodes_iff.1 h with rfl | ⟨child, hchild, hstop⟩
    · exact ⟨_, isPath_self _⟩
    · obtain ⟨path, hpath⟩ := ih child hchild hstop
      exact ⟨_, hpath.above hchild⟩

variable {keep : Node → Bool}

/-- A server is reached from a node through the nodes of a path. -/
theorem leadsTo_iff_exists_path {server : NodeId} : start.LeadsTo keep server ↔
    ∃ path, start.IsPath (.server server) path ∧ ∀ node ∈ path, keep node = true := by
  constructor
  · intro h
    induction h with
    | server hkept => exact ⟨_, isPath_self _, List.forall_mem_singleton.2 hkept⟩
    | group hkept hchild _ ih =>
      obtain ⟨path, hpath, hall⟩ := ih
      exact ⟨_, hpath.above hchild, List.forall_mem_cons.2 ⟨hkept, hall⟩⟩
  · rintro ⟨path, hpath, hall⟩
    induction path generalizing start with
    | nil => cases hpath.first
    | cons node rest ih =>
      obtain ⟨hkept, hrest⟩ := List.forall_mem_cons.1 hall
      rcases isPath_iff.1 hpath with ⟨hself, rfl⟩ | ⟨child, hchild, rest', hcons, hbelow⟩
      · obtain ⟨rfl, -⟩ := List.cons.inj hself
        exact .server hkept
      · obtain ⟨rfl, rfl⟩ := List.cons.inj hcons
        exact .of_child hkept hchild (ih hbelow hrest)

/-! ### Servers -/

theorem serversOfAll_eq_flatMap (nodes : List Node) :
    serversOfAll nodes = nodes.flatMap Node.servers := by
  induction nodes with
  | nil => rfl
  | cons node rest ih => rw [serversOfAll, ih, List.flatMap_cons]

/-- The servers are listed as they come among all nodes. -/
theorem servers_eq (node : Node) : node.servers = (node.nodes.filter isServer).map id := by
  induction node using induct with
  | server id => rfl
  | group id nodeClass children ih =>
    have hgroup : (group id nodeClass children).isServer = false := rfl
    rw [servers, serversOfAll_eq_flatMap, nodes_eq_cons, List.filter_cons_of_neg (by simp [hgroup]),
      List.filter_flatMap, List.map_flatMap]
    exact List.flatMap_congr ih

end Node

namespace Topology

variable {t : Topology} {root start stop : Node} {path path' : List Node} {defect : TopologyDefect}

/-! ### Indexing a tree -/

theorem exists_ofNode?_iff : (∃ t, ofNode? root = .ok t) ↔
    (∀ n ∈ root.nodes, n.Sound) ∧ (root.nodes.map Node.id).Nodup := by
  rw [← Node.exists_enterAll_iff, ← Node.register_eq_enterAll]
  constructor
  · rintro ⟨t, h⟩
    unfold ofNode? at h
    split at h
    · rename_i index hindex
      exact ⟨index, hindex⟩
    · cases h
  · rintro ⟨index, h⟩
    exact ⟨⟨root, index, h⟩, ofNode?_root ⟨root, index, h⟩⟩

/-- A tree that cannot be indexed has a first node at fault. -/
theorem ofNode?_eq_error_iff : ofNode? root = .error defect ↔
    ∃ before node after, root.nodes = before ++ node :: after ∧
      ((∀ n ∈ before, n.Sound) ∧ (before.map Node.id).Nodup) ∧
      node.defect? (before.map Node.id) = some defect := by
  simp only [← Node.exists_enterAll_iff]
  rw [← Node.enterAll_eq_error_iff, ← Node.register_eq_enterAll]
  unfold ofNode?
  split <;> simp [*]

theorem node_eq_error_iff {id : NodeId} :
    t.node id = .error (.nodeNotFound id) ↔ ∀ n ∈ t.root.nodes, n.id ≠ id := by
  constructor
  · intro h n hn hid
    rw [node_eq_ok_iff.2 ⟨hn, hid⟩] at h
    cases h
  · intro h
    unfold node
    cases hfind : t.find? id with
    | none => rfl
    | some n =>
      have hnode : t.node id = .ok n := by
        unfold node
        rw [hfind]
      obtain ⟨hn, hid⟩ := node_eq_ok_iff.1 hnode
      exact absurd hid (h n hn)

/-- No two paths lead from one node of a topology to another. -/
theorem path_unique (hstart : start ∈ t.root.nodes) (h : start.IsPath stop path)
    (h' : start.IsPath stop path') : path = path' := by
  induction path generalizing start path' with
  | nil => cases h.first
  | cons node rest ih =>
    rcases Node.isPath_iff.1 h with ⟨hself, rfl⟩ | ⟨child, hchild, below, hcons, hbelow⟩ <;>
      rcases Node.isPath_iff.1 h' with ⟨hself', hstop⟩ | ⟨child', hchild', below', rfl, hbelow'⟩
    · rw [hself, hself']
    · exact absurd rfl (Node.ne_of_mem_child hchild' hbelow'.mem_nodes)
    · exact absurd hstop (Node.ne_of_mem_child hchild hbelow.mem_nodes)
    · obtain ⟨rfl, rfl⟩ := List.cons.inj hcons
      obtain rfl := eq_of_below hstart hchild hchild' hbelow.mem_nodes hbelow'.mem_nodes
      rw [ih (mem_nodes_of_child hstart hchild) hbelow hbelow']

/-- What a topology says of a tree agrees with the tree. -/
structure Indexes (t : Topology) (root : Node) : Prop where
  /-- A node is found by its id, with everything below it. -/
  node : ∀ id n, t.node id = .ok n ↔ n ∈ root.nodes ∧ n.id = id
  missing : ∀ id, t.node id = .error (.nodeNotFound id) ↔ ∀ n ∈ root.nodes, n.id ≠ id
  size : t.size = root.nodes.length
  /-- Servers are listed depth first. -/
  servers : t.servers = (root.nodes.filter Node.isServer).map Node.id
  once : t.servers.Nodup
  path : ∀ start ∈ root.nodes, ∀ stop ∈ start.nodes, ∃! path, start.IsPath stop path

theorem indexes_root (t : Topology) : t.Indexes t.root where
  node _ _ := node_eq_ok_iff
  missing _ := node_eq_error_iff
  size := t.size_eq
  servers := t.root.servers_eq
  once := by
    rw [servers, Node.servers_eq]
    exact t.entered.nodup.sublist (List.filter_sublist.map Node.id)
  path start hstart stop hstop := by
    obtain ⟨path, hpath⟩ := Node.exists_path hstop
    exact ⟨path, hpath, fun _ h => path_unique hstart h hpath⟩

theorem root_of_ofNode? (h : ofNode? root = .ok t) : t.root = root := by
  unfold ofNode? at h
  split at h
  · obtain rfl := Except.ok.inj h
    rfl
  · cases h

/-- A tree has an index exactly if its nodes are sound and no two share an id. Then the index knows
every node by its id and no others. Whether a server is reached from a node, in any tree, is decided
by the nodes on a path to it. -/
theorem ofNode?_indexes (root : Node) :
    ((∃ t, ofNode? root = .ok t) ↔
      (∀ n ∈ root.nodes, n.Sound) ∧ (root.nodes.map Node.id).Nodup) ∧
    (∀ t, ofNode? root = .ok t → t.Indexes root) ∧
    ∀ (keep : Node → Bool) (wanted : NodeId → Bool) (start : Node),
      start.reaches keep wanted = true ↔
        ∃ server, .server server ∈ start.nodes ∧ wanted server = true ∧
          ∃ path, start.IsPath (.server server) path ∧ ∀ n ∈ path, keep n = true := by
  refine ⟨exists_ofNode?_iff, fun t h => ?_, fun keep wanted start => ?_⟩
  · obtain rfl := root_of_ofNode? h
    exact t.indexes_root
  · rw [Node.reaches_eq_true_iff]
    refine exists_congr fun server => ?_
    rw [Node.leadsTo_iff_exists_path]
    constructor
    · rintro ⟨⟨path, hpath, hkept⟩, hwanted⟩
      exact ⟨hpath.mem_nodes, hwanted, path, hpath, hkept⟩
    · rintro ⟨-, hwanted, hpath⟩
      exact ⟨hpath, hwanted⟩

/-- Two servers in a rack, and one beside it. -/
def oneRack : Node :=
  .group "dc" .datacenter [.group "r1" .rack [.server "s1", .server "s2"], .server "s3"]

theorem ofNode?_indexes_oneRack :
    ∃ t, ofNode? oneRack = .ok t ∧
      t.node "r1" = .ok (.group "r1" .rack [.server "s1", .server "s2"]) ∧
      t.node "s4" = .error (.nodeNotFound "s4") ∧ t.size = 5 ∧ t.servers = ["s1", "s2", "s3"] ∧
      oneRack.reaches (fun n => n.id != "r1") (fun _ => true) = true := by
  obtain ⟨hexists, hindexes, hreaches⟩ := ofNode?_indexes oneRack
  obtain ⟨t, ht⟩ := hexists.2 ⟨by decide, by decide⟩
  have h := hindexes t ht
  refine ⟨t, ht, (h.node ..).2 ⟨by decide, rfl⟩, (h.missing ..).2 (by decide), h.size, h.servers,
    ?_⟩
  exact (hreaches ..).2
    ⟨"s3", by decide, rfl, [oneRack, .server "s3"], ⟨rfl, rfl, by decide⟩, by decide⟩

end Topology

end ReplicaRing
