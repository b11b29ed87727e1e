import ReplicaRing.Proofs.Trees.Covering

/-!
# Builds side by side and in order agree

In a build with the subtrees side by side, every worker enters the rings of its subtree into a
shared map, whenever it has made one (`Entering`). Any such course of events is an order of turns,
and the other way round (`entering_iff`). As the rings of different nodes have different ids, the
tree is that of a build in order whatever the turns, and if rings fail, the failure that both builds
report is that of the first one in the order of the topology (`Builder.first_failure`).
`Builder.sideBySide_agrees` states all of it.
-/

namespace ReplicaRing

/-! ### Entering rings into a shared map -/

/-- Workers enter rings into a shared map. From a map and what each worker has still to enter, in
its order, to the map when all of them are done: at each moment any worker may be the next to enter
a ring. -/
inductive Entering : Std.ExtTreeMap NodeId Ring → List (List (NodeId × Ring)) →
    Std.ExtTreeMap NodeId Ring → Prop
  | done {rings : Std.ExtTreeMap NodeId Ring} {lists : List (List (NodeId × Ring))}
    (idle : ∀ list ∈ lists, list = []) : Entering rings lists rings
  | enter {rings final : Std.ExtTreeMap NodeId Ring} {lists : List (List (NodeId × Ring))} {i : Nat}
    {id : NodeId} {ring : Ring} {rest : List (NodeId × Ring)}
    (turn : lists[i]? = some ((id, ring) :: rest))
    (later : Entering (rings.insert id ring) (lists.set i rest) final) : Entering rings lists final

/-- A turn takes the head of the list that it names. -/
theorem takeTurn_eq_some_iff {α : Type} {i : Nat} {lists rest : List (List α)} {a : α} :
    takeTurn i lists = some (a, rest) ↔
      ∃ tail, lists[i]? = some (a :: tail) ∧ rest = lists.set i tail := by
  fun_induction takeTurn i lists generalizing rest with
  | case1 => simp
  | case2 => simp
  | case3 a' as lists =>
    constructor
    · intro h
      cases h
      exact ⟨as, rfl, rfl⟩
    · rintro ⟨tail, h, rfl⟩
      cases h
      rfl
  | case4 i list lists ih =>
    rw [Option.map_eq_some_iff]
    constructor
    · rintro ⟨⟨a', taken⟩, htaken, heq⟩
      cases heq
      obtain ⟨tail, hi, rfl⟩ := ih.1 htaken
      exact ⟨tail, hi, rfl⟩
    · rintro ⟨tail, hi, rfl⟩
      exact ⟨(a, lists.set i tail), ih.2 ⟨tail, hi, rfl⟩, rfl⟩

namespace Entering

variable {rings final : Std.ExtTreeMap NodeId Ring} {lists : List (List (NodeId × Ring))}

/-- Every course of events is an order of turns. -/
theorem exists_turns (h : Entering rings lists final) :
    ∃ turns, final = rings.insertMany (interleave turns lists) := by
  induction h with
  | done idle =>
    refine ⟨[], ?_⟩
    rw [interleave, List.flatten_eq_nil_iff.2 idle, Std.ExtTreeMap.insertMany_nil]
  | @enter rings final lists i id ring rest turn _ ih =>
    obtain ⟨turns, rfl⟩ := ih
    refine ⟨i :: turns, ?_⟩
    rw [interleave, takeTurn_eq_some_iff.2 ⟨rest, turn, rfl⟩]
    exact Std.ExtTreeMap.insertMany_cons.symm

/-- A worker that has nothing to enter makes no difference. -/
theorem cons_nil (h : Entering rings lists final) : Entering rings ([] :: lists) final := by
  induction h with
  | done idle => exact .done (List.forall_mem_cons.2 ⟨rfl, idle⟩)
  | @enter rings final lists i id ring rest turn _ ih => exact .enter (i := i + 1) turn ih

/-- The workers may enter their rings one after the other. -/
theorem inTurn (rings : Std.ExtTreeMap NodeId Ring) (lists : List (List (NodeId × Ring))) :
    Entering rings lists (rings.insertMany lists.flatten) := by
  induction lists generalizing rings with
  | nil => exact .done (by simp)
  | cons list lists ih =>
    induction list generalizing rings with
    | nil => exact (ih rings).cons_nil
    | cons pair list ihlist =>
      obtain ⟨id, ring⟩ := pair
      refine .enter (i := 0) rfl ?_
      rw [List.flatten_cons, List.cons_append, Std.ExtTreeMap.insertMany_cons]
      exact ihlist _

theorem interleave (rings : Std.ExtTreeMap NodeId Ring) (turns : List Nat)
    (lists : List (List (NodeId × Ring))) :
    Entering rings lists (rings.insertMany (interleave turns lists)) := by
  induction turns generalizing rings lists with
  | nil => exact inTurn rings lists
  | cons i turns ih =>
    rw [ReplicaRing.interleave]
    split
    · rename_i pair rest hturn
      obtain ⟨tail, hi, rfl⟩ := takeTurn_eq_some_iff.1 hturn
      rw [Std.ExtTreeMap.insertMany_cons]
      exact .enter hi (ih _ _)
    · exact ih rings lists

end Entering

/-- The orders of turns are exactly the courses of events. -/
theorem entering_iff {rings final : Std.ExtTreeMap NodeId Ring}
    {lists : List (List (NodeId × Ring))} :
    Entering rings lists final ↔ ∃ turns, final = rings.insertMany (interleave turns lists) := by
  constructor
  · exact Entering.exists_turns
  · rintro ⟨turns, rfl⟩
    exact .interleave rings turns lists

/-! ### The first failure -/

namespace Builder

variable {b : Builder} {r : Recipe} {prior : Option Tree} {root : Node}

/-- A failure is that of a covered node of which none comes earlier in the topology and fails. -/
theorem first_failure (hroot : root ∈ r.topology.root.nodes) {e : Error}
    (h : (r.subtree b.config prior root).failure = some e) :
    ∃ before v after name, root.nodes = before ++ v :: after ∧ r.Covered root v name ∧
      (r.narrow v name).ring b.config prior v = .error e ∧
      ∀ w ∈ before, ∀ name', r.Covered root w name' →
        ∃ ring, (r.narrow w name').ring b.config prior w = .ok ring := by
  rw [Recipe.subtree_eq] at h
  obtain ⟨resultsBefore, id, resultsAfter, hresults, hok⟩ := Yield.eq_append_of_failure_eq_some h
  obtain ⟨coveredBefore, rest, hcoverage, rfl, hrest⟩ := List.map_eq_append_iff.1 hresults
  obtain ⟨⟨v, name⟩, coveredAfter, rfl, hv, -⟩ := List.map_eq_cons_iff.1 hrest
  -- The covered nodes stand in the list of all nodes in the same order.
  have hsublist := r.coverage_sublist root
  rw [hcoverage, List.map_append, List.map_cons, List.append_sublist_iff] at hsublist
  obtain ⟨upTo, others, hnodes, -, hothers⟩ := hsublist
  obtain ⟨until', behind, rfl, hmem, hbehind⟩ := List.cons_sublist_iff.1 hothers
  obtain ⟨between, beyond, rfl⟩ := List.append_of_mem hmem
  have hsplit : root.nodes = (upTo ++ between) ++ v :: (beyond ++ behind) := by
    rw [hnodes]
    simp
  have hnodup : root.nodes.Nodup :=
    (r.topology.entered.nodup.of_map _).sublist (Node.nodes_sublist hroot)
  rw [hsplit, List.nodup_append] at hnodup
  obtain ⟨-, -, hapart⟩ := hnodup
  have hcovered : r.Covered root v name := by
    rw [← Recipe.mem_coverage_iff, hcoverage]
    simp
  refine ⟨_, v, _, name, hsplit, hcovered, (Prod.mk.inj hv).2, fun w hw name' hname' => ?_⟩
  -- So a covered node that comes earlier was asked for its ring earlier.
  rw [← Recipe.mem_coverage_iff, hcoverage, List.mem_append, List.mem_cons] at hname'
  rcases hname' with hearlier | hhere | hlater
  · exact hok (r.coveredRing b.config prior (w, name')) (List.mem_map_of_mem hearlier)
  · exact absurd (Prod.mk.inj hhere).1 (hapart w hw v (List.mem_cons_self ..))
  · have hmem : w ∈ behind := hbehind.subset (List.mem_map_of_mem (f := Prod.fst) hlater)
    exact absurd rfl (hapart w hw w (by simp [hmem]))

/-- The rings of a tree that was built are those which the workers enter, in any course of events,
after the ring of the parent. -/
theorem Outcome.rings_eq_of_entering {t : Tree} (h : b.Outcome r prior (.ok t))
    (hroot : r.topology.node r.parent = .ok root) (hexpands : r.expands root = true) {ring : Ring}
    (hring : r.ring b.config prior root = .ok ring) {policy : StoragePolicy}
    (hpolicy : r.policy = .ok policy) {final : Std.ExtTreeMap NodeId Ring}
    (hentering : Entering (.ofList [(root.id, ring)])
      ((b.childYields r prior policy root).map Yield.rings) final) : t.rings = final := by
  obtain ⟨turns, rfl⟩ := entering_iff.1 hentering
  have hbuilt := h.eq.trans (buildSideBySide_eq_buildInOrder turns).symm
  unfold buildSideBySide at hbuilt
  rw [hroot] at hbuilt
  dsimp only [bind, Except.bind] at hbuilt
  rw [if_pos hexpands, hring, hpolicy] at hbuilt
  dsimp only at hbuilt
  split at hbuilt
  · cases hbuilt
  · rw [Except.ok.inj hbuilt, Recipe.treeOf, Std.ExtTreeMap.ofList_cons,
      Std.ExtTreeMap.ofList_singleton]

/-- A build with the subtrees side by side agrees with one in order, whatever the turns: both give
the same tree or the same failure. A tree has what its recipe says of it, and a ring at each covered
node and nowhere else; in whatever course of events the workers enter the rings below the parent,
these are its rings. A failure is that of the first covered node in the order of the topology whose
ring fails, unless there is no parent to start from. -/
theorem sideBySide_agrees (b : Builder) (r : Recipe) (prior : Option Tree) :
    (∀ turns, b.buildSideBySide turns r prior = b.buildInOrder r prior) ∧
    (∀ t, b.buildInOrder r prior = .ok t →
      t.topology = r.topology ∧ t.parent = r.parent ∧ t.version = r.version ∧
      t.created = r.created ∧ t.region = r.region ∧
      ∃ root, r.topology.node r.parent = .ok root ∧
        (∀ id ring, t.ring? id = some ring ↔ ∃ v name, r.Covered root v name ∧ v.id = id ∧
          (r.narrow v name).ring b.config prior v = .ok ring) ∧
        (∀ v name, r.Covered root v name → (t.ring? v.id).isSome) ∧
        (∀ ring policy final, r.expands root = true → r.ring b.config prior root = .ok ring →
          r.policy = .ok policy →
          Entering (.ofList [(root.id, ring)])
            ((b.childYields r prior policy root).map Yield.rings) final →
          t.rings = final)) ∧
    (∀ e, b.buildInOrder r prior = .error e → r.topology.node r.parent = .error e ∨
      ∃ root before v after name, r.topology.node r.parent = .ok root ∧
        root.nodes = before ++ v :: after ∧ r.Covered root v name ∧
        (r.narrow v name).ring b.config prior v = .error e ∧
        ∀ w ∈ before, ∀ name', r.Covered root w name' →
          ∃ ring, (r.narrow w name').ring b.config prior w = .ok ring) := by
  refine ⟨buildSideBySide_eq_buildInOrder, fun t ht => ?_, fun e he => ?_⟩
  · have houtcome : b.Outcome r prior (.ok t) := ht ▸ .inOrder
    obtain ⟨root, hroot, -, htree⟩ := houtcome.exists_root
    refine ⟨by rw [htree]; rfl, by rw [htree]; rfl, by rw [htree]; rfl, by rw [htree]; rfl,
      by rw [htree]; rfl, root, hroot, ?_, ?_, ?_⟩
    · exact fun id ring => houtcome.ring?_eq_some_iff hroot
    · exact fun v name hv => (houtcome.isSome_ring?_iff hroot).2 ⟨v, name, hv, rfl⟩
    · intro ring policy final hexpands hring hpolicy
      exact houtcome.rings_eq_of_entering hroot hexpands hring hpolicy
  · have houtcome : b.Outcome r prior (.error e) := he ▸ .inOrder
    rcases houtcome.exists_failure with hnone | ⟨root, hroot, hfailure⟩
    · exact .inl hnone
    · obtain ⟨before, v, after, name, hnodes, hcovered, hring, hbefore⟩ :=
        first_failure (Topology.node_eq_ok_iff.1 hroot).1 hfailure
      exact .inr ⟨root, before, v, after, name, hroot, hnodes, hcovered, hring, hbefore⟩

/-- The cluster of two racks, with a policy for each that does not exist. -/
def strayPoliciesRecipe : Recipe :=
  { twoRacksRecipe "cluster" "cluster" [] with
    policies := .ofList [⟨"cluster", .root, ⟨1, [⟨.rack, "first", some (.ofList ["r"])⟩,
      ⟨.rack, "second", none⟩]⟩, some ⟨1, []⟩⟩] }

/-- The racks are built in any order of turns. When both of them fail, it is the failure of the
first that counts. -/
theorem sideBySide_agrees_bothRacks :
    (∃ t, t.nodes = ["cluster", "r", "s"] ∧
      ∀ turns, standard.buildSideBySide turns (twoRacksRecipe "cluster" "cluster" []) none = .ok t) ∧
    ∀ turns, standard.buildSideBySide turns strayPoliciesRecipe none =
      .error (.policyNotFound "first") := by
  constructor
  · obtain ⟨t, houtcome, hnodes⟩ := exists_outcome
      (show ((standard.build (twoRacksRecipe "cluster" "cluster" []) none).toOption.any fun t =>
        t.nodes = ["cluster", "r", "s"]) = true by decide +kernel)
    exact ⟨t, of_decide_eq_true hnodes, fun turns =>
      ((sideBySide_agrees _ _ _).1 turns).trans houtcome.eq.symm⟩
  · have hfails : (match standard.buildInOrder strayPoliciesRecipe none with
        | .error (.policyNotFound name) => decide (name = "first")
        | _ => false) = true := by decide +kernel
    intro turns
    rw [(sideBySide_agrees _ _ _).1 turns]
    split at hfails
    · rename_i name hresult
      rw [hresult, of_decide_eq_true hfails]
    · cases hfails

end Builder

end ReplicaRing
