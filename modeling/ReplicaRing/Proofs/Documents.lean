import ReplicaRing.Inputs
import ReplicaRing.Proofs.Json.Records
import ReplicaRing.Proofs.Json.Values
import ReplicaRing.Proofs.Topologies
import ReplicaRing.Sorting

/-!
# Documents are read back

What is written for a policy group, a topology, exclusions or host groups is read as the same again
(`read_written`). For each kind of document there are two facts to show: that its value is one whose
text is read back (`counted_document`), and that the value is taken apart as it was put together
(`ofDocument?_document`). A topology is the only one that can be too deep to be read, and it is
read exactly if its document nests no more than the reader follows
(`Topology.ofDocument_document`).
-/

namespace ReplicaRing

open Json

@[simp] theorem NodeClass.counted_document (c : NodeClass) : Counted c.document :=
  counted_ofText c.name

@[simp] theorem NodeClass.ofDocument?_document (c : NodeClass) :
    ofDocument? c.document = some c := by
  simp [ofDocument?, document, ofName?_name]

/-! ### Policies -/

theorem ChildRule.counted_document (rule : ChildRule) : Counted rule.document := by
  cases h : rule.ids <;> simp [document, h]

theorem ChildRule.ofDocument?_document (rule : ChildRule) :
    ofDocument? rule.document = some rule := by
  obtain ⟨nodeClass, policy, ids⟩ := rule
  cases ids <;> simp [ofDocument?, document, field?, nodeSetOfDocument?, setOfList_toList]

theorem RolePolicy.counted_document (p : RolePolicy) : Counted p.document := by
  simp [document, ChildRule.counted_document]

theorem RolePolicy.ofDocument?_document (p : RolePolicy) : ofDocument? p.document = some p := by
  have hchildren : (p.children.map ChildRule.document).mapM ChildRule.ofDocument? =
      some p.children :=
    mapM_map_eq_some fun rule _ => rule.ofDocument?_document
  simp [ofDocument?, document, field?, hchildren]

theorem StoragePolicy.counted_document (p : StoragePolicy) : Counted p.document := by
  cases h : p.secondary <;> simp [document, h, RolePolicy.counted_document]

theorem StoragePolicy.ofDocument?_document (p : StoragePolicy) :
    ofDocument? p.document = some p := by
  obtain ⟨name, nodeClass, primary, secondary⟩ := p
  have hprimary := primary.ofDocument?_document
  cases secondary with
  | none => simp [ofDocument?, document, field?, hprimary]
  | some secondary =>
    have hpresent : optional? RolePolicy.ofDocument? (some secondary.document) =
        some (some secondary) := by
      rw [optional?_some _ (by simp [RolePolicy.document, ofFields]),
        secondary.ofDocument?_document, Option.map_some]
    simp [ofDocument?, document, field?, hprimary, hpresent]

namespace PolicyGroup

theorem ext_policies {g h : PolicyGroup} (heq : g.policies = h.policies) : g = h := by
  obtain ⟨policies, named⟩ := g
  obtain ⟨policies', named'⟩ := h
  subst heq
  rfl

/-- A group is determined by what it answers for each name. -/
theorem ext_policy {g h : PolicyGroup} (heq : ∀ name, g.policy name = h.policy name) : g = h := by
  refine ext_policies (Std.ExtTreeMap.ext_getElem? fun name => ?_)
  have hname := heq name
  unfold policy at hname
  cases hg : g.policies[name]? <;> cases hh : h.policies[name]? <;> simp_all

/-- Of several policies with one name the last is filed under it. -/
theorem policies_ofList (policies : List StoragePolicy) :
    (ofList policies).policies = .ofList (policies.map fun p => (p.name, p)) := by
  have hall : ∀ g : PolicyGroup, (policies.foldl insert g).policies =
      (policies.map fun p => (p.name, p)).foldl (fun m pair => m.insert pair.1 pair.2) g.policies := by
    intro g
    induction policies generalizing g with
    | nil => rfl
    | cons p policies ih => exact ih (g.insert p)
  rw [Std.ExtTreeMap.ofList_eq_foldl]
  exact hall empty

/-- Policies with different names may be inserted in any order. -/
theorem ofList_eq_of_perm {ps ps' : List StoragePolicy} (h : ps.Perm ps')
    (hnodup : (ps'.map StoragePolicy.name).Nodup) : ofList ps = ofList ps' := by
  apply ext_policies
  rw [policies_ofList, policies_ofList]
  apply ReplicaRing.ofList_eq_of_perm (h.map _)
  rwa [List.map_map]

theorem getElem?_of_mem_toList {g : PolicyGroup} {p : StoragePolicy} (h : p ∈ g.toList) :
    g.policies[p.name]? = some p := by
  obtain ⟨⟨name, p⟩, hpair, rfl⟩ := List.mem_map.1 h
  have hname := Std.ExtTreeMap.mem_toList_iff_getElem?_eq_some.1 hpair
  rw [g.named name p hname]
  exact hname

/-- A group is determined by the list of its policies. -/
theorem ofList_toList (g : PolicyGroup) : ofList g.toList = g := by
  have hpairs : (g.toList.map fun p => (p.name, p)) = g.policies.toList := by
    rw [toList, List.map_map]
    apply (List.map_congr_left ?_).trans (List.map_id _)
    intro pair hpair
    -- A policy is filed under its own name.
    have hfiled := Std.ExtTreeMap.mem_toList_iff_getElem?_eq_some.1 hpair
    exact Prod.ext (g.named pair.1 pair.2 hfiled) rfl
  apply ext_policies
  rw [policies_ofList, hpairs, ReplicaRing.ofList_toList]

/-- The order of policies by name. -/
def precedes (p p' : StoragePolicy) : Bool :=
  (compare p.name p'.name).isLE

/-- In whatever order the policies of a group are listed, sorting them by name gives the order in
which they are written. -/
theorem sortBy_precedes {g : PolicyGroup} {listed : List StoragePolicy}
    (h : listed.Perm g.toList) : sortBy precedes listed = g.toList := by
  apply ((sortBy_perm precedes listed).trans h).eq_of_pairwise
  · intro p p' hp hp' hle hge
    -- Two policies of one group with the same name are the same.
    have hcompare : compare p.name p'.name = .eq := Std.OrientedCmp.isLE_antisymm hle hge
    have hname : p.name = p'.name := Std.LawfulEqCmp.eq_of_compare hcompare
    have hfiled := getElem?_of_mem_toList (h.mem_iff.1 (mem_sortBy.1 hp))
    rw [hname, getElem?_of_mem_toList hp'] at hfiled
    exact (Option.some.inj hfiled).symm
  · apply pairwise_sortBy
    · intro p p'
      have hswap : compare p'.name p.name = (compare p.name p'.name).swap :=
        Std.OrientedCmp.eq_swap
      rw [hswap]
      cases compare p.name p'.name <;> simp
    · intro p p' p'' hle hle'
      exact Std.TransCmp.isLE_trans hle hle'
  · refine List.pairwise_map.2 ((Std.ExtTreeMap.ordered_keys_toList (t := g.policies)).imp_of_mem ?_)
    intro a b ha hb hlt
    have hname := g.named a.1 a.2 (Std.ExtTreeMap.mem_toList_iff_getElem?_eq_some.1 ha)
    have hname' := g.named b.1 b.2 (Std.ExtTreeMap.mem_toList_iff_getElem?_eq_some.1 hb)
    rw [hname, hname', hlt]
    rfl

theorem counted_document (g : PolicyGroup) : Counted g.document := by
  simp [document, StoragePolicy.counted_document]

theorem ofDocument?_document (g : PolicyGroup) : ofDocument? g.document = some g := by
  have hpolicies : (g.toList.map StoragePolicy.document).mapM StoragePolicy.ofDocument? =
      some g.toList :=
    mapM_map_eq_some fun p _ => p.ofDocument?_document
  simp [ofDocument?, document, hpolicies, ofList_toList]

end PolicyGroup

/-! ### Topologies -/

namespace Json

mutual

/-- The largest number of objects and arrays of a value that stand in one another. -/
def nesting : Json → Nat
  | array elements => nestingOfAll elements + 1
  | object members => nestingOfMembers members + 1
  | _ => 0

/-- The largest nesting of several values. -/
def nestingOfAll : List Json → Nat
  | [] => 0
  | value :: rest => max value.nesting (nestingOfAll rest)

/-- The largest nesting of the values of several members. -/
def nestingOfMembers : List (Option String × Json) → Nat
  | [] => 0
  | (_, value) :: rest => max value.nesting (nestingOfMembers rest)

end

end Json

namespace Node

theorem documents_eq_map (nodes : List Node) : documents nodes = nodes.map document := by
  induction nodes with
  | nil => rfl
  | cons node nodes ih => rw [documents, ih, List.map_cons]

theorem counted_document (node : Node) : Counted node.document := by
  induction node using induct with
  | server id => simp [document]
  | group id nodeClass children ih => simpa [document, documents_eq_map] using ih

theorem nesting_server (id : NodeId) : (server id).document.nesting = 2 := rfl

theorem nesting_group (id : NodeId) (nodeClass : NodeClass) (children : List Node) :
    (group id nodeClass children).document.nesting =
      nestingOfAll (children.map document) + 3 := by
  simp [document, documents_eq_map, ofFields, nesting, nestingOfMembers, NodeClass.document, ofText]

/-- A node is read back exactly if its document nests no more than the reader follows. -/
theorem ofDocument?_document (node : Node) (containers : Nat) :
    ofDocument? containers node.document =
      if node.document.nesting ≤ containers then some node else none := by
  induction node using induct generalizing containers with
  | server id =>
    rw [nesting_server]
    match containers with
    | 0 => rfl
    | 1 => rfl
    | 2 => simp [ofDocument?, document, serverOfDocument?, field?]
    | containers + 3 => simp [ofDocument?, document, serverOfDocument?, field?]
  | group id nodeClass children ih =>
    rw [nesting_group]
    match containers with
    | 0 => rfl
    | 1 => rfl
    | 2 => simp [ofDocument?, document]
    | containers + 3 =>
      have hchildren : (children.map document).mapM (ofDocument? containers) =
          if nestingOfAll (children.map document) ≤ containers then some children else none := by
        clear id nodeClass
        induction children with
        | nil => simp [nestingOfAll]
        | cons child children ihrest =>
          obtain ⟨hchild, hrest⟩ := List.forall_mem_cons.1 ih
          rw [List.map_cons, List.mapM_cons, hchild, ihrest hrest, nestingOfAll]
          split_ifs <;> simp <;> omega
      simp [ofDocument?, document, documents_eq_map, field?, hchildren]
      split_ifs <;> simp

end Node

namespace Topology

/-- A topology is read back exactly if its document nests no more than documents may. -/
theorem ofDocument_document (t : Topology) :
    ofDocument t.document =
      if t.document.nesting ≤ nestingLimit then .ok t else .error .malformed := by
  rw [ofDocument, document, Node.ofDocument?_document]
  split_ifs
  · dsimp only
    rw [t.ofNode?_root]
    rfl
  · rfl

end Topology

/-! ### Exclusions and host groups -/

theorem Exclusions.ofDocument?_document (e : Exclusions) : ofDocument? e.document = some e := by
  simp [ofDocument?, document, ofList, toList, setOfList_toList]

namespace HostGroups

theorem counted_document (t : HostGroups) : Counted t.document := by
  apply counted_ofFields.2
  intro field hfield
  obtain ⟨group, -, rfl⟩ := List.mem_map.1 hfield
  exact counted_ofTexts group.2.toList

theorem ofDocument?_document (t : HostGroups) : ofDocument? t.document = some t := by
  rw [ofDocument?, document, members?_ofFields, Option.bind_eq_bind, Option.bind_some,
    mapM_map_eq_some]
  · simp [ReplicaRing.ofList_toList]
  · intro group _
    simp [setOfList_toList]

end HostGroups

/-! ### Written and read -/

/-- What is written for a list of texts is taken for a list, not for lines. -/
theorem opensWith_ofTexts (texts : List String) :
    Inputs.opensWith '[' (ofTexts texts).text.toList = true := by
  rw [Json.text, String.toList_ofList]
  cases texts <;> rfl

/-- Everything that is written for a policy group, exclusions or host groups is read as the same
again, and so is everything that is written for a topology, with its index, unless the document
nests more than the reader follows. The document of a policy group depends neither on the order in
which its policies were inserted nor on the order in which they are listed before they are sorted by
name. -/
theorem read_written :
    (∀ g : PolicyGroup, Inputs.policies g.document.text.toList = .ok g) ∧
    (∀ ps ps' : List StoragePolicy,
      (∀ name, (PolicyGroup.ofList ps).policy name = (PolicyGroup.ofList ps').policy name) →
        (PolicyGroup.ofList ps).document.text = (PolicyGroup.ofList ps').document.text) ∧
    (∀ (g : PolicyGroup) (listed : List StoragePolicy), listed.Perm g.toList →
      g.document = .array ((sortBy PolicyGroup.precedes listed).map StoragePolicy.document)) ∧
    (∀ t : Topology, Inputs.topology t.document.text.toList =
      if t.document.nesting ≤ Topology.nestingLimit then .ok t else .error .malformed) ∧
    (∀ e : Exclusions, Inputs.exclusions e.document.text.toList = .ok e) ∧
    ∀ h : HostGroups, Inputs.hostGroups h.document.text.toList = .ok h := by
  refine ⟨fun g => ?_, fun ps ps' hsame => ?_, fun g listed hlisted => ?_, fun t => ?_, fun e => ?_,
    fun h => ?_⟩
  · rw [Json.text, String.toList_ofList]
    exact readPlain_write g.counted_document g.ofDocument?_document
  · rw [PolicyGroup.ext_policy hsame]
  · rw [PolicyGroup.sortBy_precedes hlisted]
    rfl
  · have hcounted : Counted t.document := t.root.counted_document
    rw [Json.text, String.toList_ofList, Inputs.topology, readDocument_write hcounted]
    exact t.ofDocument_document
  · have hopens : Inputs.opensWith '[' e.document.text.toList = true := opensWith_ofTexts e.toList
    rw [Inputs.exclusions, if_pos hopens, Json.text, String.toList_ofList]
    exact readPlain_write (counted_ofTexts _) e.ofDocument?_document
  · rw [Json.text, String.toList_ofList]
    exact readPlain_write h.counted_document h.ofDocument?_document

/-- A policy for the racks of a datacenter, with a rule for two of them alone. -/
def rackPolicy : StoragePolicy where
  name := "by rack"
  nodeClass := .datacenter
  primary := ⟨2, [⟨.rack, "in rack", none⟩, ⟨.rack, "local", some (.ofList ["rack1", "rack2"])⟩]⟩
  secondary := some ⟨1, []⟩

/-- A policy for the servers of a rack. -/
def serverPolicy : StoragePolicy where
  name := "in rack"
  nodeClass := .rack
  primary := ⟨1, []⟩
  secondary := none

theorem read_written_twoPolicies :
    (PolicyGroup.ofList [rackPolicy, serverPolicy]).document.text =
      (PolicyGroup.ofList [serverPolicy, rackPolicy]).document.text ∧
    (PolicyGroup.ofList [rackPolicy, serverPolicy]).document =
      .array ((sortBy PolicyGroup.precedes
        (PolicyGroup.ofList [rackPolicy, serverPolicy]).toList.reverse).map
          StoragePolicy.document) := by
  have hinserted : PolicyGroup.ofList [rackPolicy, serverPolicy] =
      PolicyGroup.ofList [serverPolicy, rackPolicy] :=
    PolicyGroup.ofList_eq_of_perm (.swap ..) (by decide)
  exact ⟨read_written.2.1 _ _ fun name => by rw [hinserted],
    read_written.2.2.1 _ _ (List.reverse_perm _)⟩

end ReplicaRing
