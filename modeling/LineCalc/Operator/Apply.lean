import LineCalc.Operator.Basic
import LineCalc.Binary64.Condense
import LineCalc.Binary64.Pow
import LineCalc.Binary64.Shortest

/-!
# Arithmetic

What each operator computes.  All of it is exact on integers but the power, which passes through
binary64: base and result have 53 significant bits, and the result is written back with its shortest
decimal.
-/

namespace LineCalc

/-- Why an operator has no result. -/
inductive ArithmeticError where
  | divisionByZero
  | powerOverflow
deriving DecidableEq, Repr

/-- The message for an arithmetic error. -/
def ArithmeticError.message : ArithmeticError → Text
  | divisionByZero => "Division by zero".toList
  | powerOverflow => "Power result is not finite".toList

namespace Operator

/-- The part of an exponent that counts: its low 32 bits, read as a two's complement number. -/
def effectiveExponent (e : Int) : Int := e.bmod (Nat.pow 2 32)

/-- The power `b ^ e` through binary64, which must be finite.  The base is taken into the format by
`convert` and raised there by `raise`.  Rounding to nearest does not depend on signs, so both see
the magnitude of the base only; if the exponent is odd, the result has the sign of the base. -/
def power (convert : Nat → Binary64.Magnitude)
    (raise : Binary64.Magnitude → Int → Binary64.Magnitude) (b e : Int) :
    Except ArithmeticError Int :=
  let k := effectiveExponent e
  match raise (convert b.natAbs) k with
  | none => .error .powerOverflow
  | some v =>
    .ok (if b < 0 ∧ k % 2 = 1 then -(Binary64.shortest v : Int) else Binary64.shortest v)

/-- The result of an operator.  Division truncates toward zero. -/
def apply : Operator → Int → Int → Except ArithmeticError Int
  | add, a, b => .ok (a + b)
  | sub, a, b => .ok (a - b)
  | mul, a, b => .ok (a * b)
  | div, a, b => if b = 0 then .error .divisionByZero else .ok (a.tdiv b)
  | pow, a, b => power Binary64.ofNat Binary64.pow a b

end Operator

end LineCalc
