import LineCalc.Store.Basic
import LineCalc.Token.Basic

/-!
# Values for names

`substitute` replaces the names in a list of tokens by their values, each in parentheses of its own.
The tokens that are put in are not looked at again.
-/

namespace LineCalc.Store

/-- The tokens of a value: its digits in parentheses, after a minus if it is negative. -/
def valueTokens (v : Int) : List Token :=
  if v < 0 then [.lparen, .op .sub, .int v.natAbs, .rparen] else [.lparen, .int v, .rparen]

/-- The tokens with the value of each name in place of the name, or the first name without one. -/
def substitute (s : Store) : List Token → Except UnknownVariable (List Token)
  | [] => .ok []
  | .name x :: ts => do
    let v ← s.resolve x
    let us ← s.substitute ts
    return valueTokens v ++ us
  | t :: ts => do
    let us ← s.substitute ts
    return t :: us

end LineCalc.Store
