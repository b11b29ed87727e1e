import ReplicaRing.Maps
import ReplicaRing.Proofs.Placement.Escalation
import ReplicaRing.Proofs.Recipes
import ReplicaRing.Tree.Build

/-!
# What a build makes

A build asks for a ring at each node that the recipe covers, depth first, until one of them fails
(`Recipe.subtree_eq`). A parallel build enters the same rings in another order (`interleave_perm`),
and since each is entered under an id of its own, the tree is the same
(`Builder.buildSideBySide_eq_buildInOrder`). So however a tree was built, its rings are those of the
covered nodes (`Builder.Outcome.ring?_eq_some_iff`), and a build fails only by the ring of one of
them (`Builder.Outcome.error`).
-/

namespace ReplicaRing

/-! ### Taking turns -/

theorem takeTurn_perm {α : Type} {i : Nat} {lists rest : List (List α)} {a : α}
    (h : takeTurn i lists = some (a, rest)) : (a :: rest.flatten).Perm lists.flatten := by
  fun_induction takeTurn i lists generalizing rest with
  | case1 => cases h
  | case2 => cases h
  | case3 a as lists =>
    cases h
    exact List.Perm.refl _
  | case4 i list lists ih =>
    obtain ⟨⟨b, taken⟩, htaken, heq⟩ := Option.map_eq_some_iff.1 h
    cases heq
    rw [List.flatten_cons, List.flatten_cons]
    exact List.perm_middle.symm.trans ((ih htaken).append_left list)

/-- Whatever the turns, the elements that come are those of the lists. -/
theorem interleave_perm {α : Type} (turns : List Nat) (lists : List (List α)) :
    (interleave turns lists).Perm lists.flatten := by
  fun_induction interleave turns lists with
  | case1 => exact List.Perm.refl _
  | case2 i turns lists a rest hturn ih => exact (ih.cons a).trans (takeTurn_perm hturn)
  | case3 i turns lists _ ih => exact ih

/-! ### Yields -/

namespace Yield

theorem andThen_assoc (a b c : Yield) : (a.andThen b).andThen c = a.andThen (b.andThen c) := by
  obtain ⟨arings, afailure⟩ := a
  obtain ⟨brings, bfailure⟩ := b
  cases afailure <;> cases bfailure <;> simp [andThen]

/-- The yields of a list one after the other, up to the first that failed. -/
def concat (yields : List Yield) : Yield :=
  yields.foldr andThen empty

theorem concat_cons (y : Yield) (ys : List Yield) : concat (y :: ys) = y.andThen (concat ys) := rfl

/-- The failure of the first yield that failed counts. -/
theorem failure_concat (yields : List Yield) :
    (concat yields).failure = yields.findSome? Yield.failure := by
  induction yields with
  | nil => rfl
  | cons y ys ih =>
    rw [concat_cons, andThen, List.findSome?_cons]
    cases hfailure : y.failure with
    | some e => exact hfailure
    | none => exact ih

theorem rings_concat {yields : List Yield} (h : yields.findSome? Yield.failure = none) :
    (concat yields).rings = (yields.map Yield.rings).flatten := by
  induction yields with
  | nil => rfl
  | cons y ys ih =>
    rw [List.findSome?_cons] at h
    rw [concat_cons, andThen]
    cases hfailure : y.failure with
    | some e =>
      rw [hfailure] at h
      cases h
    | none =>
      rw [hfailure] at h
      rw [List.map_cons, List.flatten_cons, ← ih h]

/-- What comes of rings that are asked for one after the other, each for a node. -/
def ofResults : List (NodeId × Except Error Ring) → Yield
  | [] => empty
  | (id, .ok ring) :: rest => andThen ⟨[(id, ring)], none⟩ (ofResults rest)
  | (_, .error e) :: _ => fail e

theorem ofResults_append (results more : List (NodeId × Except Error Ring)) :
    ofResults (results ++ more) = (ofResults results).andThen (ofResults more) := by
  fun_induction ofResults results with
  | case1 => rfl
  | case2 id ring rest ih => rw [List.cons_append, ofResults, ih, andThen_assoc]
  | case3 _ e rest => rfl

theorem concat_map_ofResults (lists : List (List (NodeId × Except Error Ring))) :
    concat (lists.map ofResults) = ofResults lists.flatten := by
  induction lists with
  | nil => rfl
  | cons results rest ih => rw [List.map_cons, concat_cons, ih, List.flatten_cons, ofResults_append]

/-- Unless one of them failed, all rings that were asked for are there. -/
theorem eq_map_of_failure_eq_none {results : List (NodeId × Except Error Ring)}
    (h : (ofResults results).failure = none) :
    results = (ofResults results).rings.map fun (id, ring) => (id, .ok ring) := by
  fun_induction ofResults results with
  | case1 => rfl
  | case2 id ring rest ih => exact congrArg _ (ih h)
  | case3 _ e rest => cases h

/-- What comes before a failure has not failed. -/
theorem eq_append_of_failure_eq_some {results : List (NodeId × Except Error Ring)} {e : Error}
    (h : (ofResults results).failure = some e) : ∃ before id after,
      results = before ++ (id, .error e) :: after ∧ ∀ p ∈ before, ∃ ring, p.2 = .ok ring := by
  fun_induction ofResults results with
  | case1 => cases h
  | case2 id ring rest ih =>
    obtain ⟨before, other, after, rfl, hbefore⟩ := ih h
    exact ⟨(id, .ok ring) :: before, other, after, rfl,
      List.forall_mem_cons.2 ⟨⟨ring, rfl⟩, hbefore⟩⟩
  | case3 id e' rest =>
    obtain rfl := Option.some.inj h
    exact ⟨[], id, rest, rfl, by simp⟩

end Yield

/-! ### Covered nodes in order -/

namespace Recipe

mutual

/-- The covered nodes from a node on, depth first, each with the name of the policy that holds
there. -/
def coverage : Recipe → Node → List (Node × String)
  | _, .server _ => []
  | r, .group id nodeClass children =>
    if r.expands (.group id nodeClass children) then
      (.group id nodeClass children, r.policyName) ::
        (match r.policy with
        | .ok policy => coverageOfAll r policy children
        | .error _ => [])
    else []

/-- The covered nodes from the children of a node on. -/
def coverageOfAll (r : Recipe) (policy : StoragePolicy) : List Node → List (Node × String)
  | [] => []
  | child :: rest =>
    (match r.childPolicy? policy child with
    | some name => coverage (r.narrow child name) child
    | none => []) ++ coverageOfAll r policy rest

end

variable {r : Recipe} {config : BuildConfig} {prior : Option Tree}

theorem coverageOfAll_eq_flatten (policy : StoragePolicy) (nodes : List Node) :
    r.coverageOfAll policy nodes = (nodes.filterMap fun child =>
      (r.childPolicy? policy child).map fun name =>
        (r.narrow child name).coverage child).flatten := by
  induction nodes with
  | nil => rfl
  | cons child rest ih =>
    rw [coverageOfAll, ih, List.filterMap_cons]
    cases r.childPolicy? policy child <;> rfl

theorem mem_coverageOfAll {policy : StoragePolicy} {nodes : List Node} {p : Node × String} :
    p ∈ r.coverageOfAll policy nodes ↔ ∃ child ∈ nodes, ∃ name,
      r.childPolicy? policy child = some name ∧ p ∈ (r.narrow child name).coverage child := by
  rw [coverageOfAll_eq_flatten, List.mem_flatten]
  simp only [List.mem_filterMap, Option.map_eq_some_iff]
  constructor
  · rintro ⟨_, ⟨child, hchild, name, hname, rfl⟩, hmem⟩
    exact ⟨child, hchild, name, hname, hmem⟩
  · rintro ⟨child, hchild, name, hname, hmem⟩
    exact ⟨_, ⟨child, hchild, name, hname, rfl⟩, hmem⟩

theorem mem_coverage_iff {node v : Node} {name : String} :
    (v, name) ∈ r.coverage node ↔ r.Covered node v name := by
  induction node using Node.induct generalizing r with
  | server id =>
    have hnot : ¬ r.expands (.server id) = true := by simp [expands, Node.children]
    rw [covered_iff, coverage]
    simp [hnot]
  | group id nodeClass children ih =>
    rw [covered_iff, coverage]
    by_cases hexpands : r.expands (.group id nodeClass children) = true
    · rw [if_pos hexpands, List.mem_cons, Prod.mk.injEq, and_iff_right hexpands]
      refine or_congr_right ?_
      cases hpolicy : r.policy with
      | error e => simp
      | ok policy =>
        rw [mem_coverageOfAll]
        constructor
        · rintro ⟨child, hchild, next, hnext, hmem⟩
          exact ⟨policy, child, next, rfl, hchild, hnext, (ih child hchild).1 hmem⟩
        · rintro ⟨_, child, next, heq, hchild, hnext, hcovered⟩
          obtain rfl := Except.ok.inj heq
          exact ⟨child, hchild, next, hnext, (ih child hchild).2 hcovered⟩
    · simp [hexpands]

theorem coverageOfAll_sublist {policy : StoragePolicy} {nodes : List Node}
    (h : ∀ node ∈ nodes, ∀ r : Recipe, ((r.coverage node).map Prod.fst).Sublist node.nodes) :
    ((r.coverageOfAll policy nodes).map Prod.fst).Sublist (nodes.flatMap Node.nodes) := by
  induction nodes with
  | nil => exact List.Sublist.refl _
  | cons child rest ih =>
    rw [coverageOfAll, List.map_append, List.flatMap_cons]
    refine List.Sublist.append ?_ (ih fun node hnode => h node (List.mem_cons_of_mem _ hnode))
    cases r.childPolicy? policy child with
    | some name => exact h child (List.mem_cons_self ..) _
    | none => exact List.nil_sublist _

/-- Covered nodes come in the order of the topology, each once. -/
theorem coverage_sublist (r : Recipe) (node : Node) :
    ((r.coverage node).map Prod.fst).Sublist node.nodes := by
  induction node using Node.induct generalizing r with
  | server id => simp [coverage]
  | group id nodeClass children ih =>
    rw [coverage]
    split
    · rw [List.map_cons, Node.nodes_eq_cons]
      refine List.Sublist.cons_cons _ ?_
      show List.Sublist _ (children.flatMap Node.nodes)
      split
      · exact coverageOfAll_sublist ih
      · exact List.nil_sublist _
    · exact List.nil_sublist _

/-- The ring that is asked for at a covered node. -/
def coveredRing (config : BuildConfig) (prior : Option Tree) (r : Recipe) (p : Node × String) :
    NodeId × Except Error Ring :=
  (p.1.id, (r.narrow p.1 p.2).ring config prior p.1)

theorem coveredRing_self (node : Node) : r.coveredRing config prior (node, r.policyName) =
    (node.id, r.ring config prior node) := rfl

theorem ring_eq_error_of_policy {node : Node} {e : Error} (h : r.policy = .error e) :
    r.ring config prior node = .error e := by
  unfold ring
  rw [h]
  rfl

theorem ringYield_eq (node : Node) : r.ringYield config prior node =
    Yield.ofResults [(node.id, r.ring config prior node)] := by
  unfold ringYield
  cases r.ring config prior node <;> rfl

/-- What the children of a node contribute is what each of them contributes. -/
theorem subtrees_eq_concat (policy : StoragePolicy) (nodes : List Node) :
    subtrees config prior r policy nodes = Yield.concat (nodes.filterMap fun child =>
      (r.childPolicy? policy child).map fun name =>
        (r.narrow child name).subtree config prior child) := by
  induction nodes with
  | nil => rfl
  | cons child rest ih =>
    rw [subtrees, ih, List.filterMap_cons]
    cases r.childPolicy? policy child <;> rfl

/-- What a subtree contributes is what comes of the rings of its covered nodes, one after the
other. -/
theorem subtree_eq (r : Recipe) (node : Node) : r.subtree config prior node =
    Yield.ofResults ((r.coverage node).map (r.coveredRing config prior)) := by
  induction node using Node.induct generalizing r with
  | server id => rfl
  | group id nodeClass children ih =>
    rw [subtree, coverage]
    split
    · rw [List.map_cons, ← List.singleton_append, Yield.ofResults_append, ringYield_eq,
        coveredRing_self]
      cases hpolicy : r.policy with
      | error e =>
        -- Without a policy there is no ring either, so nothing below counts.
        rw [ring_eq_error_of_policy hpolicy]
        rfl
      | ok policy =>
        refine congrArg _ ?_
        show subtrees config prior r policy children =
          Yield.ofResults ((coverageOfAll r policy children).map (r.coveredRing config prior))
        rw [subtrees_eq_concat, coverageOfAll_eq_flatten, List.map_flatten,
          ← Yield.concat_map_ofResults, List.map_map, List.map_filterMap]
        refine congrArg _ (List.filterMap_congr fun child hchild => ?_)
        rw [Option.map_map]
        exact Option.map_congr fun name _ => ih child hchild _
    · rfl

end Recipe

/-! ### Builders -/

namespace Builder

variable {b : Builder} {r : Recipe} {prior : Option Tree} {root : Node}

/-- What a build comes to once it has found the parent. -/
theorem buildInOrder_eq (hroot : r.topology.node r.parent = .ok root) :
    b.buildInOrder r prior = match (r.subtree b.config prior root).failure with
      | some e => .error e
      | none => .ok (r.treeOf (r.subtree b.config prior root).rings) := by
  unfold buildInOrder
  rw [hroot]
  rfl

/-- The rings that are made up to the first failure have the ids of different nodes. -/
theorem nodup_keys_rings (b : Builder) (prior : Option Tree) (hroot : root ∈ r.topology.root.nodes)
    (h : (r.subtree b.config prior root).failure = none) :
    ((r.subtree b.config prior root).rings.map Prod.fst).Nodup := by
  rw [Recipe.subtree_eq] at h ⊢
  have hkeys := congrArg (List.map Prod.fst) (Yield.eq_map_of_failure_eq_none h)
  rw [List.map_map, List.map_map] at hkeys
  change ((r.coverage root).map fun p => p.1.id) = (_ : List (NodeId × Ring)).map Prod.fst at hkeys
  rw [← hkeys]
  have hsublist := (r.coverage_sublist root).trans (Node.nodes_sublist hroot)
  simpa [Function.comp_def] using r.topology.entered.nodup.sublist (hsublist.map Node.id)

/-- A node that is expanded contributes its ring and then what its children contribute. -/
theorem subtree_of_expands (hexpands : r.expands root = true) :
    r.subtree b.config prior root = (r.ringYield b.config prior root).andThen
      (match r.policy with
      | .ok policy => Yield.concat (b.childYields r prior policy root)
      | .error e => .fail e) := by
  cases root with
  | server id => simp [Recipe.expands, Node.children] at hexpands
  | group id nodeClass children =>
    rw [Recipe.subtree, if_pos hexpands]
    refine congrArg _ ?_
    cases r.policy with
    | error e => rfl
    | ok policy => exact Recipe.subtrees_eq_concat policy children

theorem subtree_of_not_expands (hexpands : ¬ r.expands root = true) :
    r.subtree b.config prior root = .empty := by
  cases root with
  | server id => rfl
  | group id nodeClass children => rw [Recipe.subtree, if_neg hexpands]

/-- A build with the subtrees side by side comes to the same result as one in order, whatever the
turns. -/
theorem buildSideBySide_eq_buildInOrder (turns : List Nat) :
    b.buildSideBySide turns r prior = b.buildInOrder r prior := by
  cases hroot : r.topology.node r.parent with
  | error e =>
    unfold buildSideBySide buildInOrder
    rw [hroot]
    rfl
  | ok root =>
    have hmem := (Topology.node_eq_ok_iff.1 hroot).1
    unfold buildSideBySide
    rw [buildInOrder_eq hroot, hroot]
    dsimp only [bind, Except.bind]
    by_cases hexpands : r.expands root = true
    · have hkeys := nodup_keys_rings b prior hmem
      rw [subtree_of_expands hexpands] at hkeys ⊢
      rw [if_pos hexpands]
      unfold Recipe.ringYield at hkeys ⊢
      cases hring : r.ring b.config prior root with
      | error e => rfl
      | ok ring =>
        rw [hring] at hkeys
        cases hpolicy : r.policy with
        | error e =>
          rw [Recipe.ring_eq_error_of_policy hpolicy] at hring
          cases hring
        | ok policy =>
          rw [hpolicy] at hkeys
          dsimp only [Yield.andThen] at hkeys ⊢
          rw [Yield.failure_concat] at hkeys ⊢
          cases hfailure : (b.childYields r prior policy root).findSome? Yield.failure with
          | some e => rfl
          | none =>
            have hnodup := hkeys hfailure
            rw [Yield.rings_concat hfailure, List.singleton_append] at hnodup ⊢
            exact congrArg (fun rings => Except.ok (Tree.mk r.topology r.parent rings r.version
              r.created r.region)) (ofList_eq_of_perm ((interleave_perm _ _).cons _) hnodup)
    · rw [if_neg hexpands, subtree_of_not_expands hexpands]
      rfl

/-- What a builder can come to: rings are made one after the other, or side by side in some order of
turns. -/
inductive Outcome (b : Builder) (r : Recipe) (prior : Option Tree) : Except Error Tree → Prop
  | inOrder : Outcome b r prior (b.buildInOrder r prior)
  | sideBySide (turns : List Nat) : Outcome b r prior (b.buildSideBySide turns r prior)

theorem outcome_build (b : Builder) (r : Recipe) (prior : Option Tree) :
    b.Outcome r prior (b.build r prior) := by
  unfold build
  split
  · exact .sideBySide []
  · exact .inOrder

/-- A tree that comes out of a build is one of the results. -/
theorem exists_outcome {test : Tree → Bool} (h : (b.build r prior).toOption.any test = true) :
    ∃ t, b.Outcome r prior (.ok t) ∧ test t = true := by
  have houtcome := b.outcome_build r prior
  cases hbuild : b.build r prior with
  | error e =>
    rw [hbuild] at h
    cases h
  | ok t =>
    rw [hbuild] at h houtcome
    exact ⟨t, houtcome, h⟩

namespace Outcome

variable {result : Except Error Tree} {t : Tree} {e : Error}

theorem eq (h : b.Outcome r prior result) : result = b.buildInOrder r prior := by
  cases h with
  | inOrder => rfl
  | sideBySide turns => exact buildSideBySide_eq_buildInOrder turns

/-- A tree that was built has the rings of the covered nodes, none of which failed. -/
theorem exists_root (h : b.Outcome r prior (.ok t)) : ∃ root,
    r.topology.node r.parent = .ok root ∧ (r.subtree b.config prior root).failure = none ∧
      t = r.treeOf (r.subtree b.config prior root).rings := by
  have h := h.eq
  cases hroot : r.topology.node r.parent with
  | error e =>
    unfold buildInOrder at h
    rw [hroot] at h
    cases h
  | ok root =>
    rw [buildInOrder_eq hroot] at h
    refine ⟨root, rfl, ?_⟩
    cases hfailure : (r.subtree b.config prior root).failure with
    | some e =>
      rw [hfailure] at h
      cases h
    | none =>
      rw [hfailure] at h
      exact ⟨rfl, Except.ok.inj h⟩

/-- The rings of a tree that was built are those that the covered nodes get. -/
theorem ring?_eq_some_iff (h : b.Outcome r prior (.ok t))
    (hroot : r.topology.node r.parent = .ok root) {id : NodeId} {ring : Ring} :
    t.ring? id = some ring ↔ ∃ v name, r.Covered root v name ∧ v.id = id ∧
      (r.narrow v name).ring b.config prior v = .ok ring := by
  obtain ⟨root', hroot', hfailure, rfl⟩ := h.exists_root
  obtain rfl := Except.ok.inj (hroot.symm.trans hroot')
  have hkeys := nodup_keys_rings b prior (Topology.node_eq_ok_iff.1 hroot).1 hfailure
  unfold Tree.ring? Recipe.treeOf
  rw [getElem?_ofList_eq_some_iff hkeys]
  rw [Recipe.subtree_eq] at hfailure ⊢
  have hresults := Yield.eq_map_of_failure_eq_none hfailure
  have hmem : (id, ring) ∈ (Yield.ofResults
      ((r.coverage root).map (r.coveredRing b.config prior))).rings ↔
        (id, Except.ok ring) ∈ (r.coverage root).map (r.coveredRing b.config prior) := by
    conv_rhs => rw [hresults]
    simp
  rw [hmem, List.mem_map]
  unfold Recipe.coveredRing
  simp only [Prod.exists, Prod.mk.injEq, Recipe.mem_coverage_iff]

/-- Every covered node gets its ring. -/
theorem exists_ring (h : b.Outcome r prior (.ok t)) (hroot : r.topology.node r.parent = .ok root)
    {v : Node} {name : String} (hv : r.Covered root v name) :
    ∃ ring, (r.narrow v name).ring b.config prior v = .ok ring ∧ t.ring? v.id = some ring := by
  obtain ⟨root', hroot', hfailure, -⟩ := h.exists_root
  obtain rfl := Except.ok.inj (hroot.symm.trans hroot')
  rw [Recipe.subtree_eq] at hfailure
  have hmem := List.mem_map_of_mem (f := r.coveredRing b.config prior)
    (Recipe.mem_coverage_iff.2 hv)
  rw [Yield.eq_map_of_failure_eq_none hfailure] at hmem
  obtain ⟨⟨id, ring⟩, -, heq⟩ := List.mem_map.1 hmem
  have hring : (r.narrow v name).ring b.config prior v = .ok ring := (Prod.mk.inj heq).2.symm
  exact ⟨ring, hring, (h.ring?_eq_some_iff hroot).2 ⟨v, name, hv, rfl, hring⟩⟩

theorem isSome_ring?_iff (h : b.Outcome r prior (.ok t))
    (hroot : r.topology.node r.parent = .ok root) {id : NodeId} :
    (t.ring? id).isSome ↔ ∃ v name, r.Covered root v name ∧ v.id = id := by
  constructor
  · intro hsome
    obtain ⟨ring, hring⟩ := Option.isSome_iff_exists.1 hsome
    obtain ⟨v, name, hv, hid, -⟩ := (h.ring?_eq_some_iff hroot).1 hring
    exact ⟨v, name, hv, hid⟩
  · rintro ⟨v, name, hv, rfl⟩
    obtain ⟨ring, -, hring⟩ := h.exists_ring hroot hv
    rw [hring]
    rfl

/-- A build fails for want of a parent, or with the failure of what is below it. -/
theorem exists_failure (h : b.Outcome r prior (.error e)) :
    r.topology.node r.parent = .error e ∨ ∃ root, r.topology.node r.parent = .ok root ∧
      (r.subtree b.config prior root).failure = some e := by
  have h := h.eq
  cases hroot : r.topology.node r.parent with
  | error e' =>
    unfold buildInOrder at h
    rw [hroot] at h
    exact Or.inl (by cases h; rfl)
  | ok root =>
    rw [buildInOrder_eq hroot] at h
    cases hfailure : (r.subtree b.config prior root).failure with
    | none =>
      rw [hfailure] at h
      cases h
    | some e' =>
      rw [hfailure] at h
      obtain rfl := Except.error.inj h
      exact Or.inr ⟨root, rfl, hfailure⟩

/-- A build fails for want of a parent, or as the ring of a covered node does. -/
theorem error (h : b.Outcome r prior (.error e)) :
    r.topology.node r.parent = .error e ∨ ∃ root v name, r.topology.node r.parent = .ok root ∧
      r.Covered root v name ∧ (r.narrow v name).ring b.config prior v = .error e := by
  rcases h.exists_failure with hnone | ⟨root, hroot, hfailure⟩
  · exact Or.inl hnone
  · rw [Recipe.subtree_eq] at hfailure
    obtain ⟨before, id, after, hresults, -⟩ := Yield.eq_append_of_failure_eq_some hfailure
    have hmem : (id, Except.error e) ∈ (r.coverage root).map (r.coveredRing b.config prior) := by
      rw [hresults]
      simp
    obtain ⟨⟨v, name⟩, hv, heq⟩ := List.mem_map.1 hmem
    exact Or.inr ⟨root, v, name, hroot, Recipe.mem_coverage_iff.1 hv, (Prod.mk.inj heq).2⟩

end Outcome

end Builder

end ReplicaRing
