import LineCalc.Bracket
import LineCalc.Postfix.Convert
import LineCalc.Postfix.Eval
import LineCalc.Sign.Collapse
import LineCalc.Sign.Enclose
import LineCalc.Store.Substitute
import LineCalc.Token.Scan

/-!
# The value of an expression

An expression is a line that is computed.  Its signs are collapsed, its parentheses are checked, and
it is split into tokens; names give way to their values, the signs of operands are enclosed, and the
postfix form is evaluated.  The first step that fails gives the fault.
-/

namespace LineCalc.Expression

/-- Why an expression has no value. -/
inductive Fault where
  | unbalanced
  | scan (e : UnexpectedChar)
  | unknownVariable (e : UnknownVariable)
  | convert (e : ConvertError)
  | eval (e : EvalError)
deriving DecidableEq, Repr

/-- The value of infix tokens without names. -/
def tokensValue (ts : List Token) : Except Fault Int := do
  let p ← (Postfix.ofTokens (Sign.enclose ts)).mapError .convert
  p.value.mapError .eval

/-- The value of an expression, with the values of a store for its names. -/
def value (s : Store) (t : Text) : Except Fault Int :=
  let u := Sign.collapse t
  if Bracket.balanced u then do
    let ts ← (Token.scan u).mapError .scan
    let us ← (s.substitute ts).mapError .unknownVariable
    tokensValue us
  else .error .unbalanced

end LineCalc.Expression
