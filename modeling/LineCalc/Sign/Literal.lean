import LineCalc.Sign.Collapse
import LineCalc.Text.Numeral

/-!
# Signed literals

A literal is a numeral with any number of signs before it.
-/

namespace LineCalc.Sign

/-- The integer that a text denotes which is a run of signs and then a numeral, with blanks around
it and among the signs. -/
def literal? (t : Text) : Option Int :=
  match collapse t with
  | [] => none
  | c :: ds =>
    if Text.isNumeral ds then (ofSymbol? c).map (·.apply (Numeral.value ds)) else none

end LineCalc.Sign
