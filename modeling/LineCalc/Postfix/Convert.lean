import LineCalc.Postfix.Basic
import LineCalc.Token.Basic

/-!
# From infix to postfix

`Postfix.ofTokens` reads infix tokens from left to right and writes each operand at once.  An
operator waits until its right operand is complete: operators that bind at least as strongly leave
before it comes in, so that all operators associate to the left, and a closing parenthesis releases
those of its group.

A minus that stands where an operand may begin becomes a subtraction from a `0` that is put before
it.
-/

namespace LineCalc

/-- Why a list of tokens has no postfix form. -/
inductive ConvertError where
  | unmatchedRightParen
  | unmatchedLeftParen
  | unresolvedIdentifier (name : Name)
deriving DecidableEq, Repr

/-- The message for a list of tokens without a postfix form. -/
def ConvertError.message : ConvertError → Text
  | unmatchedRightParen => "Unmatched ')'".toList
  | unmatchedLeftParen => "Unmatched '('".toList
  | unresolvedIdentifier x => "Unresolved identifier: ".toList ++ x

namespace Postfix

/-- The state of the conversion between two tokens. -/
structure Yard where
  /-- The terms written so far, the latest first. -/
  out : Postfix
  /-- The waiting operators of the innermost open group, the latest first. -/
  ops : List Operator
  /-- The waiting operators of the groups around it, the innermost first. -/
  outer : List (List Operator)
  /-- Whether a minus that comes next is a sign. -/
  signed : Bool
deriving DecidableEq, Repr

namespace Yard

/-- Before the first token. -/
def start : Yard := ⟨[], [], [], true⟩

/-- The output after operators have been released to it, in the order of the list. -/
def release (ops : List Operator) (out : Postfix) : Postfix :=
  (ops.map Term.op).reverse ++ out

/-- The state after an operator, given whether a minus after it is a sign. -/
def stepOperator (signs : Bool) (y : Yard) (o : Operator) : Yard where
  out :=
    let out := release (y.ops.takeWhile (o.precedence ≤ ·.precedence)) y.out
    if o = .sub ∧ y.signed then .int 0 :: out else out
  ops := o :: y.ops.dropWhile (o.precedence ≤ ·.precedence)
  outer := y.outer
  signed := signs

/-- The state after a token.  `signs o` tells whether a minus after the operator `o` is a sign. -/
def step (signs : Operator → Bool) (y : Yard) : Token → Except ConvertError Yard
  | .int n => .ok { y with out := .int n :: y.out, signed := false }
  | .name x => .error (.unresolvedIdentifier x)
  | .op o => .ok (y.stepOperator (signs o) o)
  | .lparen => .ok { y with ops := [], outer := y.ops :: y.outer, signed := true }
  | .rparen =>
    match y.outer with
    | [] => .error .unmatchedRightParen
    | ops :: outer => .ok ⟨release y.ops y.out, ops, outer, false⟩

/-- The postfix form after the last token. -/
def finish (y : Yard) : Except ConvertError Postfix :=
  if y.outer.isEmpty then .ok (release y.ops y.out).reverse else .error .unmatchedLeftParen

end Yard

/-- The postfix form of infix tokens, given the operators after which a minus is a sign. -/
def ofTokensWith (signs : Operator → Bool) (ts : List Token) : Except ConvertError Postfix := do
  let y ← ts.foldlM (Yard.step signs) .start
  y.finish

/-- A step that succeeds writes an integer, takes an operator in, or opens or closes a group. -/
theorem Yard.step_cases {signs : Operator → Bool} {y y' : Yard} {k : Token}
    (h : y.step signs k = .ok y') :
    (∃ n, k = .int n ∧ y' = { y with out := .int n :: y.out, signed := false }) ∨
      (∃ o, k = .op o ∧ y' = y.stepOperator (signs o) o) ∨
      (k = .lparen ∧ y' = { y with ops := [], outer := y.ops :: y.outer, signed := true }) ∨
      ∃ ops outer, k = .rparen ∧ y.outer = ops :: outer ∧
        y' = ⟨release y.ops y.out, ops, outer, false⟩ := by
  cases k with
  | int n => exact Or.inl ⟨n, rfl, (Except.ok.inj h).symm⟩
  | name x => cases h
  | op o => exact Or.inr (Or.inl ⟨o, rfl, (Except.ok.inj h).symm⟩)
  | lparen => exact Or.inr (Or.inr (Or.inl ⟨rfl, (Except.ok.inj h).symm⟩))
  | rparen =>
    rw [step] at h
    split at h
    · cases h
    · next ops outer houter =>
      exact Or.inr (Or.inr (Or.inr ⟨ops, outer, rfl, houter, (Except.ok.inj h).symm⟩))

/-- A step fails at a name, and at a closing parenthesis without an open group. -/
theorem Yard.step_eq_error_iff {signs : Operator → Bool} {y : Yard} {k : Token} {e : ConvertError} :
    y.step signs k = .error e ↔ (∃ x, k = .name x ∧ e = .unresolvedIdentifier x) ∨
      k = .rparen ∧ y.outer = [] ∧ e = .unmatchedRightParen := by
  cases k with
  | int n => simp [step]
  | name x => simp [step, eq_comm]
  | op o => simp [step]
  | lparen => simp [step]
  | rparen =>
    obtain ⟨out, ops, outer, signed⟩ := y
    cases outer with
    | nil => simp [step, eq_comm]
    | cons os outer => simp [step]

/-- A yard that can be finished has no open group. -/
theorem Yard.finish_eq_ok_iff {y : Yard} {p : Postfix} :
    y.finish = .ok p ↔ y.outer = [] ∧ (release y.ops y.out).reverse = p := by
  obtain ⟨out, ops, outer, signed⟩ := y
  cases outer with
  | nil => simp [finish]
  | cons os outer => simp [finish]

theorem Yard.finish_eq_error_iff {y : Yard} {e : ConvertError} :
    y.finish = .error e ↔ y.outer ≠ [] ∧ e = .unmatchedLeftParen := by
  obtain ⟨out, ops, outer, signed⟩ := y
  cases outer with
  | nil => simp [finish]
  | cons os outer => simp [finish, eq_comm]

theorem ofTokensWith_eq_ok_iff {signs : Operator → Bool} {ts : List Token} {p : Postfix} :
    ofTokensWith signs ts = .ok p ↔ ∃ y, ts.foldlM (Yard.step signs) .start = .ok y ∧
      y.outer = [] ∧ (Yard.release y.ops y.out).reverse = p := by
  rw [ofTokensWith, bind_eq_ok_iff]
  simp only [Yard.finish_eq_ok_iff]

/-- After a power a minus is not a sign; after every other operator it is. -/
def signsAfter (o : Operator) : Bool := o ≠ .pow

/-- The postfix form of infix tokens. -/
def ofTokens (ts : List Token) : Except ConvertError Postfix := ofTokensWith signsAfter ts

end Postfix

end LineCalc
