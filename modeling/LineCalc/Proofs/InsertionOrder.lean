import LineCalc.Store.Basic
import Mathlib.Data.Finset.Card
import Mathlib.Data.List.Induction

/-!
# A store after a list of assignments

The names of the store are the assigned ones, each where it was first assigned (`names_ofList`), and
a name has the value that was assigned to it last (`get?_ofList`).  The index, which is built along
with the list, tells the places of the names and nothing else, so that stores with the same list are
the same (`insertionOrder_ofList`).
-/

namespace LineCalc.Store

variable (es : List (Name × Int))

theorem ofList_append_singleton (e : Name × Int) :
    ofList (es ++ [e]) = (ofList es).assign e.1 e.2 :=
  List.foldl_append

theorem toTable_ofList :
    (ofList es).toTable = es.foldl (fun t e => t.assign e.1 e.2) .empty := by
  induction es using List.reverseRecOn with
  | nil => rfl
  | append_singleton es e ih =>
    rw [ofList_append_singleton, List.foldl_append, ← ih]
    rfl

theorem names_ofList : (ofList es).names = (es.map Prod.fst).eraseDups := by
  induction es using List.reverseRecOn with
  | nil => rfl
  | append_singleton es e ih =>
    rw [ofList_append_singleton, names_assign, List.map_append, List.eraseDups_append, ← ih]
    have hmem : e.1 ∈ (ofList es).names ↔ e.1 ∈ es.map Prod.fst := by rw [ih, List.mem_eraseDups]
    split
    · next h => simp [List.removeAll, hmem.1 h]
    · next h => simp [List.removeAll, mt hmem.2 h, List.eraseDups_cons]

theorem get?_ofList (x : Name) : (ofList es).get? x = es.reverse.lookup x := by
  induction es using List.reverseRecOn with
  | nil => rfl
  | append_singleton es e ih =>
    obtain ⟨y, v⟩ := e
    rw [ofList_append_singleton, List.reverse_append, List.reverse_singleton,
      List.singleton_append, List.lookup_cons]
    by_cases hxy : x = y
    · subst hxy
      rw [get?_assign_self, beq_self_eq_true]
    · rw [get?_assign_of_ne _ _ hxy, ih, beq_false_of_ne hxy]

theorem get?_ofList_eq_none_iff (x : Name) :
    (ofList es).get? x = none ↔ x ∉ es.map Prod.fst := by
  rw [get?_eq_none_iff, names_ofList, List.mem_eraseDups]

theorem size_ofList : (ofList es).size = (es.map Prod.fst).toFinset.card := by
  have hset : (es.map Prod.fst).toFinset = (ofList es).names.toFinset := by
    ext x
    rw [List.mem_toFinset, List.mem_toFinset, names_ofList, List.mem_eraseDups]
  rw [hset, List.toFinset_card_of_nodup (nodup_names _), names, List.length_map, size]

/-- After any assignments a store is a map in the order of insertion.  It lists every assigned name
once, in the order of the first assignments and with the values of the last ones; look-up gives
those values, and fails for the other names; the size is the number of assigned names.  The index
that the assignments build gives a name a place just if the list has the name at that place, and
never a place outside of the list; and lists that are equal have equal indices. -/
theorem insertionOrder_ofList :
    (ofList es).toTable = es.foldl (fun t e => t.assign e.1 e.2) .empty ∧
    ((ofList es).entries.map Prod.fst = (es.map Prod.fst).eraseDups ∧
      ((ofList es).entries.map Prod.fst).Nodup ∧
      ∀ x v, (x, v) ∈ (ofList es).entries ↔ es.reverse.lookup x = some v) ∧
    (∀ x, (ofList es).get? x = es.reverse.lookup x) ∧
    (∀ x, (ofList es).get? x = none ↔ x ∉ es.map Prod.fst) ∧
    (∀ x v, (ofList es).resolve x = .ok v ↔ es.reverse.lookup x = some v) ∧
    (∀ x e, (ofList es).resolve x = .error e ↔ x ∉ es.map Prod.fst ∧ e = ⟨x⟩) ∧
    (ofList es).size = (es.map Prod.fst).toFinset.card ∧
    (∀ x i, (ofList es).index x = some i ↔ (ofList es).entries[i]?.map Prod.fst = some x) ∧
    (∀ x i, (ofList es).index x = some i → i < (ofList es).size) ∧
    ∀ fs, (ofList es).toTable = (ofList fs).toTable ↔ (ofList es).entries = (ofList fs).entries := by
  refine ⟨toTable_ofList es, ⟨names_ofList es, nodup_names _, fun x v => ?_⟩, get?_ofList es,
    get?_ofList_eq_none_iff es, fun x v => ?_, fun x e => ?_, size_ofList es, (ofList es).coupled,
    fun x i hi => slot?_lt_size hi, fun fs => ?_⟩
  · rw [← get?_eq_some_iff, get?_ofList]
  · rw [resolve_eq_ok_iff, get?_ofList]
  · rw [resolve_eq_error_iff, get?_ofList_eq_none_iff]
  · exact ⟨congrArg Table.entries, fun h => congrArg Store.toTable (Store.ext h)⟩

end LineCalc.Store
