/-!
# Integral magnitudes in binary64

The calculator's power has the range and the precision of the binary64 format.  Its results are
integers, so only integral magnitudes are needed: a natural number stands for a finite one, and
`none` for infinity.  `nearest` rounds a natural number to the format, ties to even.
-/

namespace LineCalc.Binary64

/-- A magnitude without a fractional part; `none` is infinity. -/
abbrev Magnitude := Option Nat

/-- The multiple of `unit` nearest to `n`; of two equally near ones, the even multiple. -/
def roundTo (unit n : Nat) : Nat :=
  if 2 * (n % unit) < unit ∨ 2 * (n % unit) = unit ∧ n / unit % 2 = 0 then n / unit * unit
  else (n / unit + 1) * unit

/-- The distance between the integral magnitudes with the leading bit of `n`.  A magnitude has 53
significant bits, so this is `1` for all `n` below `2 ^ 53`. -/
def spacing (n : Nat) : Nat := Nat.pow 2 (n.log2 + 1 - 53)

/-- The magnitude nearest to `n`.  What would round to `2 ^ 1024` or beyond is infinite. -/
def nearest (n : Nat) : Magnitude :=
  let r := roundTo (spacing n) n
  if r < Nat.pow 2 1024 then some r else none

end LineCalc.Binary64
