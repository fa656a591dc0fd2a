import LineCalc.Proofs.Evaluation
import LineCalc.Tree.Postorder
import Mathlib.Data.List.Induction

/-!
# The outcome of a postfix expression

Whatever the terms are, those that have been read are the terms of trees, one tree after another,
and the stack holds the values of these trees (`run_eq_ok_iff`).  An evaluation fails at the first
term for which this stack does not do (`run_eq_error_iff`).  So each outcome is that of terms of one
form (`value_outcomes`): a value is that of a tree, and a failure names the first operator without
two operands or without a result, or else the number of the trees.
-/

namespace LineCalc.Postfix

variable {p : Postfix} {st vs : List Int} {v : Int} {o : Operator}

/-- The terms are those of trees, one tree after another, that have the values `vs`. -/
def Forest (p : Postfix) (vs : List Int) : Prop :=
  ∃ ts : List Tree, p = Tree.postorders ts ∧ ts.map Tree.value = vs.map Except.ok

/-! ## What stands on the stack -/

theorem forest_nil_iff : Forest p [] ↔ p = [] := by
  constructor
  · rintro ⟨ts, rfl, hts⟩
    rw [List.map_eq_nil_iff.1 hts]
    rfl
  · rintro rfl
    exact ⟨[], rfl, rfl⟩

theorem Forest.append_int (h : Forest p vs) (n : Int) : Forest (p ++ [.int n]) (vs ++ [n]) := by
  obtain ⟨ts, rfl, hvs⟩ := h
  refine ⟨ts ++ [.leaf n], ?_, ?_⟩
  · rw [Tree.postorders_append, Tree.postorders_singleton, Tree.postorder]
  · rw [List.map_append, List.map_append, hvs]
    rfl

/-- The values of the last two trees are those of two trees that stand after the others. -/
theorem Forest.exists_operands {a b : Int} (h : Forest p (vs ++ [a, b])) :
    ∃ ts l r, p = Tree.postorders ts ++ (Tree.postorder l ++ Tree.postorder r) ∧
      ts.map Tree.value = vs.map Except.ok ∧ l.value = .ok a ∧ r.value = .ok b := by
  obtain ⟨us, rfl, hvs⟩ := h
  rw [List.map_append] at hvs
  obtain ⟨ts, operands, rfl, hts, hoperands⟩ := List.map_eq_append_iff.1 hvs
  obtain ⟨l, operands, rfl, hl, htail⟩ := List.map_eq_cons_iff.1 hoperands
  obtain ⟨r, operands, rfl, hr, hnil⟩ := List.map_eq_cons_iff.1 htail
  obtain rfl := List.map_eq_nil_iff.1 hnil
  refine ⟨ts, l, r, ?_, hts, hl, hr⟩
  rw [Tree.postorders_append]
  simp [Tree.postorders]

theorem Forest.append_op {a b : Int} (h : Forest p (vs ++ [a, b])) (hv : o.apply a b = .ok v) :
    Forest (p ++ [.op o]) (vs ++ [v]) := by
  obtain ⟨ts, l, r, rfl, hts, hl, hr⟩ := h.exists_operands
  refine ⟨ts ++ [.node o l r], ?_, ?_⟩
  · rw [Tree.postorders_append, Tree.postorders_singleton, Tree.postorder, List.append_assoc]
  · have hnode : (Tree.node o l r).value = .ok v := by
      rw [Tree.value, hl, hr]
      exact hv
    rw [List.map_append, List.map_append, hts, List.map_singleton, hnode]
    rfl

/-- The terms of trees with values push these values. -/
theorem Forest.run_eq (h : Forest p vs) (st : List Int) : run st p = .ok (vs.reverse ++ st) := by
  obtain ⟨ts, rfl, hvs⟩ := h
  induction ts generalizing vs st with
  | nil =>
    obtain rfl : vs = [] := by simpa using hvs.symm
    rfl
  | cons t ts ih =>
    cases vs with
    | nil => cases hvs
    | cons v vs =>
      obtain ⟨hv, hvs⟩ := List.cons.inj hvs
      rw [Tree.postorders, List.flatMap_cons, run_postorder, hv, List.reverse_cons,
        List.append_assoc]
      exact ih (v :: st) hvs

/-- What has been read is the terms of trees, and the stack holds their values. -/
theorem run_eq_ok_iff : run [] p = .ok st ↔ Forest p st.reverse := by
  constructor
  · intro h
    induction p using List.reverseRecOn generalizing st with
    | nil =>
      obtain rfl := Except.ok.inj h
      exact forest_nil_iff.2 rfl
    | append_singleton p k ih =>
      rw [run_append, bind_eq_ok_iff] at h
      obtain ⟨st₁, hp, hk⟩ := h
      have hforest := ih hp
      rw [run_cons, bind_eq_ok_iff] at hk
      obtain ⟨st₂, hk, hnil⟩ := hk
      obtain rfl := Except.ok.inj hnil
      cases k with
      | int n =>
        obtain rfl := Except.ok.inj hk
        rw [List.reverse_cons]
        exact hforest.append_int n
      | op o =>
        obtain ⟨a, b, v, rest, rfl, hv, rfl⟩ := step_op_eq_ok_iff.1 hk
        rw [List.reverse_cons, List.reverse_cons, List.append_assoc] at hforest
        rw [List.reverse_cons]
        exact hforest.append_op hv
  · intro h
    have hrun := h.run_eq []
    rwa [List.reverse_reverse, List.append_nil] at hrun

/-! ## The first term that fails -/

/-- Only an operator fails: for want of two values, or as its arithmetic does. -/
theorem step_eq_error_iff {k : Term} {e : EvalError} :
    step st k = .error e ↔ ∃ o, k = .op o ∧ (st.length ≤ 1 ∧ e = .stackUnderflow o ∨
      ∃ a b rest x, st = b :: a :: rest ∧ o.apply a b = .error x ∧ e = .arithmetic x) := by
  cases k with
  | int n => simp [step]
  | op o =>
    rcases st with _ | ⟨b, _ | ⟨a, rest⟩⟩
    · simp [step, eq_comm]
    · simp [step, eq_comm]
    · rw [step]
      cases ho : o.apply a b with
      | ok v => simp [ho]
      | error x => simp [ho, eq_comm]

/-- A run fails at the first term that fails on the stack of those before it. -/
theorem run_eq_error_iff {e : EvalError} :
    run st p = .error e ↔
      ∃ q k r st', p = q ++ k :: r ∧ run st q = .ok st' ∧ step st' k = .error e :=
  foldlM_eq_error_iff

/-- The operator at which a run fails stands after trees: too few for it, or such that it has no
result for the last two. -/
theorem run_nil_eq_error_iff {e : EvalError} :
    run [] p = .error e ↔
      ∃ q o r vs, p = q ++ .op o :: r ∧ Forest q vs ∧ (vs.length ≤ 1 ∧ e = .stackUnderflow o ∨
        ∃ us a b x, vs = us ++ [a, b] ∧ o.apply a b = .error x ∧ e = .arithmetic x) := by
  rw [run_eq_error_iff]
  simp only [run_eq_ok_iff, step_eq_error_iff]
  constructor
  · rintro ⟨q, k, r, st, rfl, hq, o, rfl, ⟨hlength, rfl⟩ | ⟨a, b, rest, x, rfl, hx, rfl⟩⟩
    · exact ⟨q, o, r, st.reverse, rfl, hq, Or.inl ⟨by rwa [List.length_reverse], rfl⟩⟩
    · exact ⟨q, o, r, _, rfl, hq, Or.inr ⟨rest.reverse, a, b, x, by simp, hx, rfl⟩⟩
  · rintro ⟨q, o, r, vs, rfl, hq, ⟨hlength, rfl⟩ | ⟨us, a, b, x, rfl, hx, rfl⟩⟩
    · refine ⟨q, .op o, r, vs.reverse, rfl, by rwa [List.reverse_reverse], o, rfl, Or.inl ?_⟩
      exact ⟨by rwa [List.length_reverse], rfl⟩
    · refine ⟨q, .op o, r, b :: a :: us.reverse, rfl, by simpa using hq, o, rfl, Or.inr ?_⟩
      exact ⟨a, b, us.reverse, x, rfl, hx, rfl⟩

/-! ## Outcomes -/

theorem result_eq_error_iff {e : EvalError} :
    result st = .error e ↔
      st = [] ∧ e = .emptyExpression ∨ 2 ≤ st.length ∧ e = .leftoverOperands st.length := by
  rcases st with _ | ⟨v, _ | ⟨w, st⟩⟩
  · simp [result, eq_comm]
  · simp [result]
  · simp [result, eq_comm]

/-- At the end no tree is a failure, and so is more than one. -/
theorem exists_result_eq_error_iff {e : EvalError} :
    (∃ st, run [] p = .ok st ∧ result st = .error e) ↔ ∃ vs, Forest p vs ∧
      (vs = [] ∧ e = .emptyExpression ∨ 2 ≤ vs.length ∧ e = .leftoverOperands vs.length) := by
  simp only [run_eq_ok_iff, result_eq_error_iff]
  constructor
  · rintro ⟨st, hst, ⟨rfl, rfl⟩ | ⟨hlength, rfl⟩⟩
    · exact ⟨[], hst, Or.inl ⟨rfl, rfl⟩⟩
    · exact ⟨st.reverse, hst, Or.inr (by simpa using hlength)⟩
  · rintro ⟨vs, hvs, ⟨rfl, rfl⟩ | ⟨hlength, rfl⟩⟩
    · exact ⟨[], hvs, Or.inl ⟨rfl, rfl⟩⟩
    · exact ⟨vs.reverse, by rwa [List.reverse_reverse], Or.inr (by simpa using hlength)⟩

/-- A failure comes from an operator, or from the trees that are left at the end. -/
theorem value_eq_error_iff {e : EvalError} :
    value p = .error e ↔
      (∃ q o r vs, p = q ++ .op o :: r ∧ Forest q vs ∧ (vs.length ≤ 1 ∧ e = .stackUnderflow o ∨
        ∃ us a b x, vs = us ++ [a, b] ∧ o.apply a b = .error x ∧ e = .arithmetic x)) ∨
      ∃ vs, Forest p vs ∧
        (vs = [] ∧ e = .emptyExpression ∨ 2 ≤ vs.length ∧ e = .leftoverOperands vs.length) := by
  rw [value, bind_eq_error_iff, run_nil_eq_error_iff, exists_result_eq_error_iff]

/-- A value is that of the only tree with the terms in postorder. -/
theorem value_eq_ok_iff_tree :
    value p = .ok v ↔ ∃ t : Tree, t.value = .ok v ∧ ∀ u : Tree, u.postorder = p ↔ u = t := by
  rw [value_eq_ok_iff, run_eq_ok_iff]
  constructor
  · rintro ⟨ts, rfl, hts⟩
    obtain ⟨t, ts, rfl, ht, hnil⟩ := List.map_eq_cons_iff.1 hts
    obtain rfl := List.map_eq_nil_iff.1 hnil
    refine ⟨t, ht, fun u => ?_⟩
    rw [Tree.postorders_singleton]
    exact Tree.postorder_injective.eq_iff
  · rintro ⟨t, ht, hunique⟩
    refine ⟨[t], ?_, ?_⟩
    · rw [Tree.postorders_singleton]
      exact ((hunique t).2 rfl).symm
    · rw [List.map_singleton, ht]
      rfl

/-- The outcome of a postfix expression, whatever its terms are: a value is that of the only tree
with these terms, and a failure that of the first operator without two values or without a result,
or of the trees that are left side by side. -/
theorem value_outcomes (p : Postfix) :
    (∀ v, value p = .ok v ↔
      ∃ t : Tree, t.value = .ok v ∧ ∀ u : Tree, u.postorder = p ↔ u = t) ∧
    (value p = .error .emptyExpression ↔ p = []) ∧
    (∀ n, value p = .error (.leftoverOperands n) ↔
      2 ≤ n ∧ ∃ vs, Forest p vs ∧ vs.length = n) ∧
    (∀ o, value p = .error (.stackUnderflow o) ↔
      ∃ q r vs, p = q ++ .op o :: r ∧ Forest q vs ∧ vs.length ≤ 1) ∧
    ∀ x, value p = .error (.arithmetic x) ↔
      ∃ q o r vs a b, p = q ++ .op o :: r ∧ Forest q (vs ++ [a, b]) ∧ o.apply a b = .error x := by
  refine ⟨fun v => value_eq_ok_iff_tree, ?_, fun n => ?_, fun o => ?_, fun x => ?_⟩
  · rw [value_eq_error_iff]
    simp [forest_nil_iff]
  · rw [value_eq_error_iff]
    constructor
    · rintro (⟨q, o, r, vs, -, -, ⟨-, h⟩ | ⟨us, a, b, x, -, -, h⟩⟩ |
        ⟨vs, hvs, ⟨-, h⟩ | ⟨hlength, h⟩⟩)
      · cases h
      · cases h
      · cases h
      · cases h
        exact ⟨hlength, vs, hvs, rfl⟩
    · rintro ⟨hn, vs, hvs, rfl⟩
      exact Or.inr ⟨vs, hvs, Or.inr ⟨hn, rfl⟩⟩
  · rw [value_eq_error_iff]
    simp
  · rw [value_eq_error_iff]
    simp

end LineCalc.Postfix
