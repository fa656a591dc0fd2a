import LineCalc.Binary64.Basic

/-!
# Powers of magnitudes

`pow x k` is the power `x ^ k`, correctly rounded and truncated to an integer.

The format does not ask that powers be rounded correctly, and not all implementations do so: some
are one magnitude off at `3 ^ 34`, which lies halfway between two.  That the power of the calculator
is correctly rounded is therefore an assumption.  `IsCorrectlyRounded` names it, and what is proved
about powers is proved for every function that meets it.
-/

namespace LineCalc.Binary64

/-- The integral part of `x ^ k`, computed as if exactly and then rounded once.  A negative power of
zero is infinite, and a negative power of a magnitude above one has the integral part zero.

Where the power has more than `1024` bits it is not computed: it is infinite in any case. -/
def pow : Magnitude → Int → Magnitude
  | _, .ofNat 0 => some 1
  | none, .ofNat (_ + 1) => none
  | none, .negSucc _ => some 0
  | some x, .ofNat (k + 1) =>
    if x ≤ 1 then some x
    else if 1024 ≤ x.log2 * (k + 1) then none
    else nearest (Nat.pow x (k + 1))
  | some 0, .negSucc _ => none
  | some 1, .negSucc _ => some 1
  | some (_ + 2), .negSucc _ => some 0

end LineCalc.Binary64
