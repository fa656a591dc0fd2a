import LineCalc.Postfix.Eval
import LineCalc.Tree

/-!
# Running postfix expressions

The terms of a tree in postorder push the value of the tree (`run_postorder`), so they have that
value as a postfix expression.  Every other postfix expression changes the height of the stack by
its weight too (`length_of_run`), and has a value only if the weight is one (`weight_of_value`).
-/

namespace LineCalc.Postfix

/-- The terms of a tree push its value, or fail as its first operator without a result does. -/
theorem run_postorder (t : Tree) (st : List Int) (p : Postfix) :
    run st (t.postorder ++ p) = (do
      let v ← t.value.mapError EvalError.arithmetic
      run (v :: st) p) := by
  induction t generalizing st p with
  | leaf n => rfl
  | node o l r ihl ihr =>
    rw [Tree.postorder, List.append_assoc, List.append_assoc, ihl, Tree.value]
    cases l.value with
    | error e => rfl
    | ok a =>
      change run (a :: st) _ = _
      rw [ihr]
      cases r.value with
      | error e => rfl
      | ok b =>
        change run (b :: a :: st) (.op o :: p) = _
        rw [run_cons, step]
        cases ho : o.apply a b with
        | error e => simp only [bind, Except.bind, ho]; rfl
        | ok v => simp only [bind, Except.bind, ho]; rfl

/-- What the term adds to the height of the stack. -/
def weight : Postfix → Int
  | [] => 0
  | .int _ :: p => weight p + 1
  | .op _ :: p => weight p - 1

theorem weight_append (p q : Postfix) : weight (p ++ q) = weight p + weight q := by
  induction p with
  | nil => simp [weight]
  | cons k p ih =>
    cases k with
    | int n => simp only [List.cons_append, weight, ih]; omega
    | op o => simp only [List.cons_append, weight, ih]; omega

theorem weight_reverse (p : Postfix) : weight p.reverse = weight p := by
  induction p with
  | nil => rfl
  | cons k p ih =>
    rw [List.reverse_cons, weight_append, ih]
    cases k with
    | int n => simp [weight]
    | op o => simp [weight]; omega

theorem length_of_step {k : Term} {st st' : List Int} (h : step st k = .ok st') :
    (st'.length : Int) = st.length + weight [k] := by
  cases k with
  | int n =>
    obtain rfl := Except.ok.inj h
    simp [weight]
  | op o =>
    obtain ⟨a, b, v, rest, rfl, -, rfl⟩ := step_op_eq_ok_iff.1 h
    simp only [weight, List.length_cons]
    omega

theorem length_of_run {p : Postfix} {st st' : List Int} (h : run st p = .ok st') :
    (st'.length : Int) = st.length + weight p := by
  induction p generalizing st with
  | nil =>
    obtain rfl := Except.ok.inj h
    simp [weight]
  | cons k p ih =>
    rw [run_cons, bind_eq_ok_iff] at h
    obtain ⟨st₁, hk, h⟩ := h
    have h₁ := length_of_step hk
    have h₂ := ih h
    have hw : weight (k :: p) = weight [k] + weight p := weight_append [k] p
    omega

/-- A postfix expression with a value leaves one integer on the stack. -/
theorem weight_of_value {p : Postfix} {n : Int} (h : value p = .ok n) : weight p = 1 := by
  have hlength := length_of_run (value_eq_ok_iff.1 h)
  simp only [List.length_singleton, List.length_nil] at hlength
  omega

end LineCalc.Postfix
