import LineCalc.Text.Basic

/-!
# Decimal numerals

Reading and writing integers of any size in base ten.
-/

namespace LineCalc.Numeral

/-- The number that a string of ASCII digits denotes; leading zeros are allowed. -/
def value (ds : Text) : Nat := Nat.ofDigitChars 10 ds 0

/-- The digits of `n`, without leading zeros. -/
def ofNat (n : Nat) : Text := Nat.toDigits 10 n

/-- The numeral of an integer: its digits, after a minus sign if it is negative. -/
def ofInt : Int → Text
  | .ofNat n => ofNat n
  | .negSucc n => '-' :: ofNat (n + 1)

theorem value_ofNat (n : Nat) : value (ofNat n) = n :=
  Nat.ofDigitChars_toDigits (by decide) (by decide)

theorem isNumeral_ofNat (n : Nat) : (ofNat n).isNumeral = true :=
  Text.isNumeral_iff.2
    ⟨Nat.toDigits_ne_nil, fun _ h => Nat.isDigit_of_mem_toDigits (by decide) (by decide) h⟩

end LineCalc.Numeral
