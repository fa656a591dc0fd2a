import LineCalc.Text.Basic

/-!
# Balanced parentheses

A text is balanced if each closing parenthesis closes one that was opened before it, and none is
left open.
-/

namespace LineCalc.Bracket

/-- Whether a text closes the parentheses that are open before it, and all that it opens. -/
def closes : Nat → Text → Bool
  | d, [] => d == 0
  | d, c :: t =>
    if c = '(' then closes (d + 1) t
    else if c = ')' then
      match d with
      | 0 => false
      | d + 1 => closes d t
    else closes d t

/-- Whether the parentheses of a text are balanced. -/
def balanced (t : Text) : Bool := closes 0 t

end LineCalc.Bracket
