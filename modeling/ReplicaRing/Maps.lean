import Std.Data.ExtTreeMap
import Std.Data.ExtTreeSet

/-!
# Maps and sets as lists

Maps and sets of texts are written as lists, sorted and without repeats, and made of lists again. A
map that is made of pairs with different keys has exactly these pairs, in whatever order they come
(`getElem?_ofList_eq_some_iff`, `ofList_eq_of_perm`), so nothing is lost on the way
(`ofList_toList`, `setOfList_toList`).
-/

namespace ReplicaRing

variable {α : Type}

/-- A map that is made from pairs with different keys has exactly these pairs. -/
theorem getElem?_ofList_eq_some_iff {pairs : List (String × α)}
    (hnodup : (pairs.map Prod.fst).Nodup) {id : String} {a : α} :
    (Std.ExtTreeMap.ofList pairs)[id]? = some a ↔ (id, a) ∈ pairs := by
  have hdistinct : pairs.Pairwise fun p q => ¬ compare p.1 q.1 = .eq := by
    refine (List.pairwise_map.1 hnodup).imp fun hne heq => hne ?_
    exact Std.LawfulEqCmp.eq_of_compare heq
  constructor
  · intro h
    by_cases hid : id ∈ pairs.map Prod.fst
    · obtain ⟨⟨_, b⟩, hmem, rfl⟩ := List.mem_map.1 hid
      rw [Std.ExtTreeMap.getElem?_ofList_of_mem Std.ReflCmp.compare_self hdistinct hmem] at h
      obtain rfl := Option.some.inj h
      exact hmem
    · rw [Std.ExtTreeMap.getElem?_ofList_of_contains_eq_false (by simpa using hid)] at h
      cases h
  · exact Std.ExtTreeMap.getElem?_ofList_of_mem Std.ReflCmp.compare_self hdistinct

/-- The order in which pairs with different keys are entered does not matter. -/
theorem ofList_eq_of_perm {pairs pairs' : List (String × α)} (hperm : pairs.Perm pairs')
    (hnodup : (pairs'.map Prod.fst).Nodup) :
    Std.ExtTreeMap.ofList pairs = Std.ExtTreeMap.ofList pairs' := by
  have hnodup' := (hperm.map Prod.fst).nodup_iff.2 hnodup
  refine Std.ExtTreeMap.ext_getElem? fun id => Option.ext fun a => ?_
  rw [getElem?_ofList_eq_some_iff hnodup', getElem?_ofList_eq_some_iff hnodup, hperm.mem_iff]

/-- The pairs of a map have different keys. -/
theorem nodup_keys_toList (m : Std.ExtTreeMap String α) : (m.toList.map Prod.fst).Nodup := by
  rw [Std.ExtTreeMap.map_fst_toList_eq_keys]
  exact Std.ExtTreeMap.nodup_keys

/-- A map is determined by the list of its pairs. -/
theorem ofList_toList (m : Std.ExtTreeMap String α) : Std.ExtTreeMap.ofList m.toList = m := by
  refine Std.ExtTreeMap.ext_getElem? fun id => Option.ext fun a => ?_
  rw [getElem?_ofList_eq_some_iff (nodup_keys_toList m), Std.ExtTreeMap.mem_toList_iff_getElem?_eq_some]

/-- A set is determined by the list of its elements. -/
theorem setOfList_toList (s : Std.ExtTreeSet String) : Std.ExtTreeSet.ofList s.toList = s := by
  refine Std.ExtTreeSet.ext_mem fun id => ?_
  rw [Std.ExtTreeSet.mem_ofList, List.contains_iff_mem, Std.ExtTreeSet.mem_toList]

end ReplicaRing
