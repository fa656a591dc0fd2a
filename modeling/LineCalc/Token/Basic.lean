import LineCalc.Operator.Basic

/-!
# Tokens

The elements of an infix expression.
-/

namespace LineCalc

/-- An element of an infix expression.  Integers that were read from a text are not negative: a sign
is an operator of its own. -/
inductive Token where
  | int (n : Int)
  | name (x : Name)
  | op (o : Operator)
  | lparen
  | rparen
deriving DecidableEq, Repr

/-- The token that a single character stands for. -/
def Token.ofSymbol? (c : Char) : Option Token :=
  if c = '(' then some lparen
  else if c = ')' then some rparen
  else (Operator.ofSymbol? c).map op

end LineCalc
