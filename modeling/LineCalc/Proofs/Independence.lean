import LineCalc.Proofs.Frame
import LineCalc.Proofs.RenamedLine

/-!
# Independent assignments

Two assignments to different names, neither of which copies the target of the other, may change
places (`outcomes_swap`).  Each of them finds the same values in either order, so it has the same
outcome, and afterwards all names have the same values.  The order in which the names are listed
differs just if both lines bind a new name.
-/

namespace LineCalc

namespace Store

variable {s t : Store} {x y : Name}

/-! ## Two assignments -/

theorem get?_assign (s : Store) (x : Name) (v : Int) (z : Name) :
    (s.assign x v).get? z = if z = x then some v else s.get? z := by
  split
  · next hz => rw [hz, get?_assign_self]
  · next hz => exact get?_assign_of_ne s v hz

theorem get?_assign_assign (hxy : x ≠ y) (v w : Int) (z : Name) :
    ((s.assign y w).assign x v).get? z = ((s.assign x v).assign y w).get? z := by
  simp only [get?_assign]
  by_cases hz : z = x
  · rw [if_pos hz, if_neg (hz ▸ hxy), if_pos hz]
  · rw [if_neg hz, if_neg hz]

theorem entries_eq_map (s : Store) : s.entries = s.names.map fun z => (z, (s.get? z).getD 0) := by
  rw [names, List.map_map]
  refine (List.map_id' _).symm.trans (List.map_congr_left fun e he => ?_)
  rw [Function.comp_apply, get?_eq_some_iff.2 he]
  rfl

/-- The names in their order, and their values, determine a store. -/
theorem eq_of_get? (hnames : s.names = t.names) (hget : ∀ z, s.get? z = t.get? z) : s = t := by
  refine Store.ext ?_
  rw [entries_eq_map s, entries_eq_map t, hnames]
  simp only [hget]

/-- Assignments to two names leave the same store in either order, unless both names are new: then
the one that is assigned first is listed first. -/
theorem assign_assign_eq_iff (hxy : x ≠ y) (v w : Int) :
    (s.assign y w).assign x v = (s.assign x v).assign y w ↔ x ∈ s.names ∨ y ∈ s.names := by
  have hnames : ((s.assign y w).assign x v).names = ((s.assign x v).assign y w).names ↔
      x ∈ s.names ∨ y ∈ s.names := by
    simp only [names_assign]
    by_cases hx : x ∈ s.names <;> by_cases hy : y ∈ s.names <;> simp [hx, hy, hxy, hxy.symm]
  exact ⟨fun h => hnames.1 (congrArg names h),
    fun h => eq_of_get? (hnames.2 h) (get?_assign_assign hxy v w)⟩

/-! ## What depends on the values only -/

theorem substitute_congr (h : ∀ z, s.get? z = t.get? z) (ks : List Token) :
    s.substitute ks = t.substitute ks := by
  have hresolve : ∀ z, s.resolve z = t.resolve z := fun z => by rw [resolve, resolve, h z]
  induction ks with
  | nil => rfl
  | cons k ks ih => cases k <;> simp only [substitute, hresolve, ih]

end Store

theorem Expression.value_congr {s t : Store} (h : ∀ z, s.get? z = t.get? z) (u : Text) :
    value s u = value t u := by
  simp only [value, Store.substitute_congr h]

namespace Session

variable {s t : Store} {l l₁ l₂ : Text} {x y : Name} {source source₁ source₂ : Source}

theorem sourceValue_congr (h : ∀ z ∈ source.names, s.get? z = t.get? z) :
    sourceValue s source = sourceValue t source := by
  cases source with
  | literal v => rfl
  | copy sign z =>
    rw [sourceValue, sourceValue, Store.resolve, Store.resolve, h z List.mem_cons_self]

theorem execute_of_assign (h : Statement.classify l = .assign x source) (s : Store) :
    execute s l =
      match sourceValue s source with
      | .ok v => (.ok .silent, s.assign x v)
      | .error e => (.error (.expression (.unknownVariable e)), s) := by
  rw [execute, h]
  rfl

/-- An assignment to a name that a source does not copy leaves the value of the source as it is. -/
theorem sourceValue_execute (h : Statement.classify l = .assign x source)
    (hx : x ∉ source₁.names) (s : Store) :
    sourceValue (execute s l).2 source₁ = sourceValue s source₁ := by
  refine sourceValue_congr fun z hz => ?_
  have hzx : z ≠ x := by
    rintro rfl
    exact hx hz
  rw [execute_of_assign h]
  cases sourceValue s source with
  | ok v => exact Store.get?_assign_of_ne s v hzx
  | error e => rfl

/-- The outcome of an assignment depends on the value of its source only. -/
theorem outcome_congr (h : Statement.classify l = .assign x source)
    (hv : sourceValue s source = sourceValue t source) : (execute s l).1 = (execute t l).1 := by
  rw [execute_of_assign h, execute_of_assign h, hv]
  cases sourceValue t source <;> rfl

theorem execute_of_ok {v : Int} (h : Statement.classify l = .assign x source)
    (hv : sourceValue s source = .ok v) : execute s l = (.ok .silent, s.assign x v) := by
  rw [execute_of_assign h, hv]

theorem execute_of_error {e : UnknownVariable} (h : Statement.classify l = .assign x source)
    (hv : sourceValue s source = .error e) :
    execute s l = (.error (.expression (.unknownVariable e)), s) := by
  rw [execute_of_assign h, hv]

theorem outcomes_pair (s : Store) (l₁ l₂ : Text) :
    outcomes s [l₁, l₂] = [(execute s l₁).1, (execute (execute s l₁).2 l₂).1] := rfl

theorem after_pair (s : Store) (l₁ l₂ : Text) :
    after s [l₁, l₂] = (execute (execute s l₁).2 l₂).2 := rfl

/-- Of two such assignments one fails, and leaves the other one alone on the store in either order,
or both are carried out. -/
theorem after_swap_cases (h₁ : Statement.classify l₁ = .assign x source₁)
    (h₂ : Statement.classify l₂ = .assign y source₂)
    (hy : y ∉ source₁.names) (hx : x ∉ source₂.names) (s : Store) :
    ((∃ e, .error e ∈ outcomes s [l₁, l₂]) ∧ after s [l₂, l₁] = after s [l₁, l₂]) ∨
    ∃ v w, outcomes s [l₁, l₂] = [.ok .silent, .ok .silent] ∧
      after s [l₂, l₁] = (s.assign y w).assign x v ∧
      after s [l₁, l₂] = (s.assign x v).assign y w := by
  have hv₁ := sourceValue_execute h₂ hy s
  have hv₂ := sourceValue_execute h₁ hx s
  simp only [outcomes_pair, after_pair]
  cases hs₁ : sourceValue s source₁ with
  | error e =>
    rw [execute_of_error h₁ (hv₁.trans hs₁), execute_of_error h₁ hs₁]
    exact Or.inl ⟨⟨_, List.mem_cons_self⟩, rfl⟩
  | ok v =>
    rw [execute_of_ok h₁ (hv₁.trans hs₁)]
    cases hs₂ : sourceValue s source₂ with
    | error e =>
      rw [execute_of_error h₂ (hv₂.trans hs₂), execute_of_error h₂ hs₂, execute_of_ok h₁ hs₁]
      exact Or.inl ⟨⟨_, List.mem_cons_of_mem _ List.mem_cons_self⟩, rfl⟩
    | ok w =>
      rw [execute_of_ok h₂ (hv₂.trans hs₂), execute_of_ok h₂ hs₂, execute_of_ok h₁ hs₁]
      exact Or.inr ⟨v, w, rfl, rfl, rfl⟩

/-- Two assignments to different names that do not copy each other's targets may change places.
Each line has the same outcome in either order; afterwards each name has the same value and each
expression the same value or fault; and the stores are the same, with the names in the same order,
just if one of the names was bound before or one of the lines fails. -/
theorem outcomes_swap (h₁ : Statement.classify l₁ = .assign x source₁)
    (h₂ : Statement.classify l₂ = .assign y source₂) (hxy : x ≠ y)
    (hy : y ∉ source₁.names) (hx : x ∉ source₂.names) :
    outcomes s [l₂, l₁] = (outcomes s [l₁, l₂]).reverse ∧
    (∀ z, (after s [l₂, l₁]).get? z = (after s [l₁, l₂]).get? z) ∧
    (∀ u, Expression.value (after s [l₂, l₁]) u = Expression.value (after s [l₁, l₂]) u) ∧
    (after s [l₂, l₁] = after s [l₁, l₂] ↔
      x ∈ s.names ∨ y ∈ s.names ∨ ∃ e, .error e ∈ outcomes s [l₁, l₂]) := by
  have houtcomes : outcomes s [l₂, l₁] = (outcomes s [l₁, l₂]).reverse := by
    rw [outcomes_pair, outcomes_pair, outcome_congr h₁ (sourceValue_execute h₂ hy s),
      outcome_congr h₂ (sourceValue_execute h₁ hx s)]
    rfl
  obtain ⟨hfails, hafter⟩ | ⟨v, w, hok, hyx, hxy'⟩ := after_swap_cases h₁ h₂ hy hx s
  · rw [hafter]
    exact ⟨houtcomes, fun _ => rfl, fun _ => rfl, iff_of_true rfl (Or.inr (Or.inr hfails))⟩
  · rw [hyx, hxy']
    have hget := Store.get?_assign_assign (s := s) hxy v w
    refine ⟨houtcomes, hget, Expression.value_congr hget, ?_⟩
    rw [Store.assign_assign_eq_iff hxy, hok]
    simp

/-- Both lines copy `a` to a new name: they may change places, and only the listing tells. -/
theorem outcomes_swap_two_copies :
    outcomes (.ofList [(['a'], 3)]) ["c = a".toList, "b = -a".toList] =
      [.ok .silent, .ok .silent] ∧
    (∀ z, (Store.ofList [(['a'], 3), (['c'], 3), (['b'], -3)]).get? z =
      (Store.ofList [(['a'], 3), (['b'], -3), (['c'], 3)]).get? z) ∧
    Store.ofList [(['a'], 3), (['c'], 3), (['b'], -3)] ≠
      Store.ofList [(['a'], 3), (['b'], -3), (['c'], 3)] := by
  have hb : Statement.classify "b = -a".toList = .assign ['b'] (.copy .minus ['a']) := by decide
  have hc : Statement.classify "c = a".toList = .assign ['c'] (.copy .plus ['a']) := by decide
  obtain ⟨houtcomes, hget, -, hiff⟩ := outcomes_swap (s := .ofList [(['a'], 3)]) hb hc
    (by decide) (by decide) (by decide)
  have hsilent : outcomes (.ofList [(['a'], 3)]) ["b = -a".toList, "c = a".toList] =
      [.ok .silent, .ok .silent] := rfl
  have hbc : after (.ofList [(['a'], 3)]) ["b = -a".toList, "c = a".toList] =
      .ofList [(['a'], 3), (['b'], -3), (['c'], 3)] := by decide
  have hcb : after (.ofList [(['a'], 3)]) ["c = a".toList, "b = -a".toList] =
      .ofList [(['a'], 3), (['c'], 3), (['b'], -3)] := by decide
  rw [hbc, hcb] at hget hiff
  rw [hsilent] at houtcomes hiff
  refine ⟨houtcomes, hget, fun h => ?_⟩
  obtain hb | hc | ⟨e, he⟩ := hiff.1 h
  · exact absurd hb (by decide)
  · exact absurd hc (by decide)
  · simp at he

end Session

end LineCalc
