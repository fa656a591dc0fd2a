import LineCalc.Binary64.Basic

/-!
# Shortest decimal of a magnitude

`shortest v` is the integer with the fewest significant decimal digits that rounds to the finite
magnitude `v`, and of several such integers the one nearest to `v`.  Its last digits are zeros where
`v` has digits that its precision does not determine.
-/

namespace LineCalc.Binary64

/-- The multiple of `unit` that is nearest to `v` among those of its two neighbours that round to
`v`, if one of them does. -/
def onGrid? (v unit : Nat) : Option Nat :=
  let below := v / unit * unit
  let above := below + unit
  if nearest below = some v ∧ (2 * (v % unit) < unit ∨ nearest above ≠ some v) then some below
  else if nearest above = some v then some above
  else none

/-- The search for `shortest`, over the multiples of `10 ^ j` and then over ever finer grids. -/
def shortestFrom (v : Nat) : Nat → Nat
  | 0 => v
  | j + 1 => (onGrid? v (Nat.pow 10 (j + 1))).getD (shortestFrom v j)

/-- The integer with the fewest significant digits that rounds to `v`.  The search starts at a power
of ten above `v`, since `v < 2 ^ (v.log2 + 1) ≤ 10 ^ (v.log2 / 3 + 1)`. -/
def shortest (v : Nat) : Nat := shortestFrom v (v.log2 / 3 + 1)

end LineCalc.Binary64
