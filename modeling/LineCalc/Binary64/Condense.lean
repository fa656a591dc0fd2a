import LineCalc.Binary64.Basic

/-!
# From natural numbers to magnitudes

`ofNat` takes a number of any size into binary64.  A number is held in words of 64 bits, the highest
of which need not be full, and it is rounded in two steps: `condense` keeps its leading 64 bits and
marks in the last of them that something is cut off, and the result is rounded to nearest.

The mark depends on a part of what is cut off only: in each word below the highest, on as many of
its lowest bits as the highest word is wide.  The first step therefore does nothing to a number of
at most 64 bits (`condense_of_lt`), but of a longer one it can lose all that makes it greater than a
number halfway between two magnitudes.  Then the even one of the two is taken.
-/

namespace LineCalc.Binary64

/-- The number of bits of the highest word. -/
def topWidth (n : Nat) : Nat := n.log2 % 64 + 1

/-- Whether a word below the highest has a bit set among its lowest `topWidth n` bits. -/
def hasTail (n : Nat) : Bool :=
  (List.range (n.log2 / 64)).any fun i => n / Nat.pow 2 (64 * i) % Nat.pow 2 (topWidth n) ≠ 0

/-- The leading 64 bits of a number in their places, and zeros below them.  The last of these bits is
set also if the number has a tail. -/
def condense (n : Nat) : Nat :=
  let unit := Nat.pow 2 (n.log2 + 1 - 64)
  if hasTail n then (n / unit / 2 * 2 + 1) * unit else n / unit * unit

/-- The magnitude that stands for a number. -/
def ofNat (n : Nat) : Magnitude := nearest (condense n)

theorem condense_of_lt {n : Nat} (h : n < Nat.pow 2 64) : condense n = n := by
  have hl : n.log2 < 64 := by
    by_cases h0 : n = 0
    · subst h0
      decide
    · exact (Nat.log2_lt h0).2 h
  have hw : n.log2 / 64 = 0 := Nat.div_eq_of_lt hl
  have hu : n.log2 + 1 - 64 = 0 := by omega
  simp [condense, hasTail, hw, hu]

theorem ofNat_of_lt {n : Nat} (h : n < Nat.pow 2 64) : ofNat n = nearest n := by
  rw [ofNat, condense_of_lt h]

end LineCalc.Binary64
