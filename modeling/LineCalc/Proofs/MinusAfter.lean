import LineCalc.Proofs.Settled

/-!
# After which operators a minus is a sign

The conversion takes a minus after `^` for a subtraction, and a minus after any other operator for a
sign.  In settled tokens no minus stands after an operator, so this makes no difference
(`ofTokensWith_of_settled`): every text has the value that it would have if a minus after `^` were a
sign too (`value_signs`).
-/

namespace LineCalc

namespace Postfix

namespace Yard

/-- Two yards that differ at most in whether a minus is a sign, and only after an operator. -/
structure Agrees (p : Sign.Place) (y z : Yard) : Prop where
  out : z.out = y.out
  ops : z.ops = y.ops
  outer : z.outer = y.outer
  signed : p ≠ .operator → z.signed = y.signed

variable {p : Sign.Place} {y z : Yard}

theorem finish_of_agrees (h : y.Agrees p z) : z.finish = y.finish := by
  rw [finish, finish, h.out, h.ops, h.outer]

/-- An operator that comes in is no minus after an operator.  So what is written for it does not
depend on whether a minus is a sign there. -/
theorem agrees_stepOperator {o : Operator} (h : y.Agrees p z) (ho : p.Admits (.op o)) (b c : Bool) :
    (y.stepOperator b o).Agrees .operator (z.stepOperator c o) := by
  have hsigned : (o = .sub ∧ z.signed = true) ↔ (o = .sub ∧ y.signed = true) := by
    refine and_congr_right fun hsub => ?_
    subst hsub
    rw [h.signed ho]
  refine ⟨?_, ?_, h.outer, fun hp => absurd rfl hp⟩
  · simp only [stepOperator, h.out, h.ops, hsigned]
  · simp only [stepOperator, h.ops]

/-- Yards that agree fail together at a token, or agree after it. -/
theorem agrees_step {k : Token} (h : y.Agrees p z) (hk : p.Admits k)
    (signs signs' : Operator → Bool) :
    (∃ e, y.step signs k = .error e ∧ z.step signs' k = .error e) ∨
      ∃ y' z', y.step signs k = .ok y' ∧ z.step signs' k = .ok z' ∧ y'.Agrees k.place z' := by
  cases k with
  | int n =>
    exact Or.inr ⟨_, _, rfl, rfl, congrArg (Term.int n :: ·) h.out, h.ops, h.outer, fun _ => rfl⟩
  | name x => exact Or.inl ⟨_, rfl, rfl⟩
  | op o => exact Or.inr ⟨_, _, rfl, rfl, agrees_stepOperator h hk _ _⟩
  | lparen =>
    have houter : z.ops :: z.outer = y.ops :: y.outer := by rw [h.ops, h.outer]
    exact Or.inr ⟨_, _, rfl, rfl, h.out, rfl, houter, fun _ => rfl⟩
  | rparen =>
    have hrelease : release z.ops z.out = release y.ops y.out := by rw [h.ops, h.out]
    simp only [step, h.outer, hrelease]
    cases y.outer with
    | nil => exact Or.inl ⟨_, rfl, rfl⟩
    | cons os outer => exact Or.inr ⟨_, _, rfl, rfl, rfl, rfl, rfl, fun _ => rfl⟩

/-- Settled tokens lead yards that agree to the same postfix form. -/
theorem finish_foldlM_of_agrees {ks : List Token} (h : y.Agrees p z) (hks : Sign.Settled p ks)
    (signs signs' : Operator → Bool) :
    ks.foldlM (step signs) y >>= finish = ks.foldlM (step signs') z >>= finish := by
  induction ks generalizing y z p with
  | nil => exact (finish_of_agrees h).symm
  | cons k ks ih =>
    rw [List.foldlM_cons, List.foldlM_cons]
    obtain ⟨e, hy, hz⟩ | ⟨y', z', hy, hz, h'⟩ := agrees_step h hks.1 signs signs'
    · rw [hy, hz]
      rfl
    · rw [hy, hz]
      exact ih h' hks.2

end Yard

/-- The postfix form of settled tokens does not depend on the operators after which a minus is a
sign. -/
theorem ofTokensWith_of_settled {ks : List Token} (h : Sign.Settled .opening ks)
    (signs signs' : Operator → Bool) : ofTokensWith signs ks = ofTokensWith signs' ks :=
  Yard.finish_foldlM_of_agrees ⟨rfl, rfl, rfl, fun _ => rfl⟩ h signs signs'

theorem ofTokensWith_enclose (signs signs' : Operator → Bool) (ts : List Token) :
    ofTokensWith signs (Sign.enclose ts) = ofTokensWith signs' (Sign.enclose ts) :=
  ofTokensWith_of_settled (Sign.settled_encloseFrom .start ts) signs signs'

end Postfix

namespace Expression

/-- The value of infix tokens without names, given the operators after which a minus is a sign. -/
def tokensValueWith (signs : Operator → Bool) (ts : List Token) : Except Fault Int := do
  let p ← (Postfix.ofTokensWith signs (Sign.enclose ts)).mapError .convert
  p.value.mapError .eval

/-- The value of an expression, given the operators after which a minus is a sign. -/
def valueWith (signs : Operator → Bool) (s : Store) (t : Text) : Except Fault Int :=
  let u := Sign.collapse t
  if Bracket.balanced u then do
    let ts ← (Token.scan u).mapError .scan
    let us ← (s.substitute ts).mapError .unknownVariable
    tokensValueWith signs us
  else .error .unbalanced

theorem valueWith_signsAfter (s : Store) (t : Text) :
    valueWith Postfix.signsAfter s t = value s t :=
  rfl

theorem valueWith_congr (signs signs' : Operator → Bool) (s : Store) (t : Text) :
    valueWith signs s t = valueWith signs' s t := by
  have htokens : tokensValueWith signs = tokensValueWith signs' := by
    funext ts
    rw [tokensValueWith, Postfix.ofTokensWith_enclose signs signs', tokensValueWith]
  rw [valueWith, htokens, valueWith]

/-- Whether a minus after a power is a sign, as it is after the other operators, makes no difference
to the postfix form of tokens whose signs have been enclosed, and so to the value of no text. -/
theorem value_signs :
    (∀ ts, Postfix.ofTokens (Sign.enclose ts) =
      Postfix.ofTokensWith (fun _ => true) (Sign.enclose ts)) ∧
    ∀ s t, value s t = valueWith (fun _ => true) s t := by
  refine ⟨fun ts => Postfix.ofTokensWith_enclose _ _ ts, fun s t => ?_⟩
  rw [← valueWith_signsAfter]
  exact valueWith_congr _ _ s t

/-- It does make a difference to tokens as they stand. -/
example : Postfix.ofTokens [.int 2, .op .pow, .op .sub, .int 1] =
      .ok [.int 2, .op .pow, .int 1, .op .sub] ∧
    Postfix.ofTokensWith (fun _ => true) [.int 2, .op .pow, .op .sub, .int 1] =
      .ok [.int 2, .op .pow, .int 0, .int 1, .op .sub] := by
  decide

end Expression

end LineCalc
