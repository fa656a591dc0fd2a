import LineCalc.Operator.Apply
import LineCalc.Postfix.Basic

/-!
# The value of a postfix expression

The terms are read from left to right with a stack of values.  An integer is pushed; an operator
takes its right operand from the stack, then its left one, and pushes its result.
-/

namespace LineCalc

/-- Why a postfix expression has no value. -/
inductive EvalError where
  | stackUnderflow (o : Operator)
  | emptyExpression
  | leftoverOperands (count : Nat)
  | arithmetic (e : ArithmeticError)
deriving DecidableEq, Repr

/-- The message for a postfix expression without a value. -/
def EvalError.message : EvalError → Text
  | stackUnderflow o => "Stack underflow: ".toList ++ [o.symbol]
  | emptyExpression => "Empty expression".toList
  | leftoverOperands n =>
    "Expression left ".toList ++ Numeral.ofNat n ++ " values on the stack".toList
  | arithmetic e => e.message

namespace Postfix

/-- The stack of values after a term; the latest value is the first. -/
def step (st : List Int) : Term → Except EvalError (List Int)
  | .int n => .ok (n :: st)
  | .op o =>
    match st with
    | b :: a :: st =>
      match o.apply a b with
      | .ok v => .ok (v :: st)
      | .error e => .error (.arithmetic e)
    | _ => .error (.stackUnderflow o)

/-- An operator needs two values, and puts its result in their place. -/
theorem step_op_eq_ok_iff {st st' : List Int} {o : Operator} :
    step st (.op o) = .ok st' ↔
      ∃ a b v rest, st = b :: a :: rest ∧ o.apply a b = .ok v ∧ st' = v :: rest := by
  constructor
  · intro h
    simp only [step] at h
    split at h
    · next b a rest =>
      split at h
      · next v hv => exact ⟨a, b, v, rest, rfl, hv, (Except.ok.inj h).symm⟩
      · cases h
    · cases h
  · rintro ⟨a, b, v, rest, rfl, hv, rfl⟩
    simp only [step, hv]

/-- The stack of values after the terms of a postfix expression. -/
def run (st : List Int) (p : Postfix) : Except EvalError (List Int) := p.foldlM step st

theorem run_cons (st : List Int) (k : Term) (p : Postfix) :
    run st (k :: p) = step st k >>= fun st => run st p := rfl

theorem run_append (st : List Int) (p q : Postfix) :
    run st (p ++ q) = run st p >>= fun st => run st q :=
  List.foldlM_append

/-- The only value on a stack. -/
def result : List Int → Except EvalError Int
  | [] => .error .emptyExpression
  | [v] => .ok v
  | st => .error (.leftoverOperands st.length)

/-- The value of a postfix expression. -/
def value (p : Postfix) : Except EvalError Int := run [] p >>= result

theorem result_eq_ok_iff {st : List Int} {v : Int} : result st = .ok v ↔ st = [v] := by
  match st with
  | [] => simp [result]
  | [w] => simp [result]
  | w :: w' :: st => simp [result]

theorem value_eq_ok_iff {p : Postfix} {v : Int} : value p = .ok v ↔ run [] p = .ok [v] := by
  rw [value, bind_eq_ok_iff]
  simp only [result_eq_ok_iff, exists_eq_right]

end Postfix

end LineCalc
