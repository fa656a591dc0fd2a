import LineCalc.Binary64.Basic
import Mathlib.Algebra.Order.Ring.Nat

/-!
# Rounding to nearest

What `nearest` does to the numbers that are magnitudes, to the order of numbers, and where it gives
infinity.  The multiples of the spacing of a number are kept (`roundTo_of_dvd`), and no number is
moved beyond one of them (`le_roundTo`, `roundTo_le`).  So the numbers up to `2 ^ 53` are magnitudes
(`nearest_of_le`), and rounding does not go below a magnitude (`le_of_nearest`).  What a number
rounds to is not rounded again (`nearest_of_nearest`), and rounding keeps the order, so that between
two numbers that round to a magnitude all do (`nearest_of_between`).  The numbers that round to
infinity begin halfway between the greatest magnitude and `2 ^ 1024` (`nearest_eq_none_iff`).
-/

namespace LineCalc.Binary64

variable {unit m n r k : Nat}

/-! ## Multiples of a unit -/

theorem div_mul_le_roundTo (unit n : Nat) : n / unit * unit ≤ roundTo unit n := by
  unfold roundTo
  split
  · exact Nat.le_refl _
  · exact Nat.mul_le_mul_right unit (Nat.le_succ _)

theorem roundTo_le_div_succ_mul (unit n : Nat) : roundTo unit n ≤ (n / unit + 1) * unit := by
  unfold roundTo
  split
  · exact Nat.mul_le_mul_right unit (Nat.le_succ _)
  · exact Nat.le_refl _

theorem roundTo_of_dvd (hunit : 0 < unit) (h : unit ∣ n) : roundTo unit n = n := by
  rw [roundTo, Nat.mod_eq_zero_of_dvd h, if_pos (Or.inl hunit), Nat.div_mul_cancel h]

theorem le_div_mul (hunit : 0 < unit) (h : unit ∣ m) (hmn : m ≤ n) : m ≤ n / unit * unit := by
  obtain ⟨k, rfl⟩ := h
  rw [Nat.mul_comm] at hmn ⊢
  exact Nat.mul_le_mul_right unit ((Nat.le_div_iff_mul_le hunit).2 hmn)

theorem le_roundTo (hunit : 0 < unit) (h : unit ∣ m) (hmn : m ≤ n) : m ≤ roundTo unit n :=
  Nat.le_trans (le_div_mul hunit h hmn) (div_mul_le_roundTo unit n)

theorem roundTo_le (hunit : 0 < unit) (h : unit ∣ m) (hnm : n ≤ m) : roundTo unit n ≤ m := by
  obtain rfl | hlt := Nat.eq_or_lt_of_le hnm
  · exact Nat.le_of_eq (roundTo_of_dvd hunit h)
  · obtain ⟨k, rfl⟩ := h
    rw [Nat.mul_comm] at hlt ⊢
    exact Nat.le_trans (roundTo_le_div_succ_mul unit n)
      (Nat.mul_le_mul_right unit ((Nat.div_lt_iff_lt_mul hunit).2 hlt))

theorem dvd_roundTo (unit n : Nat) : unit ∣ roundTo unit n := by
  unfold roundTo
  split
  · exact Nat.dvd_mul_left unit _
  · exact Nat.dvd_mul_left unit _

theorem roundTo_mono (h : m ≤ n) : roundTo unit m ≤ roundTo unit n := by
  obtain hlt | heq := Nat.lt_or_eq_of_le (Nat.div_le_div_right (c := unit) h)
  · calc roundTo unit m ≤ (m / unit + 1) * unit := roundTo_le_div_succ_mul unit m
      _ ≤ n / unit * unit := Nat.mul_le_mul_right unit hlt
      _ ≤ roundTo unit n := div_mul_le_roundTo unit n
  · -- between the same two multiples, what is rounded up stays so when it grows
    have hm := Nat.div_add_mod m unit
    have hn := Nat.div_add_mod n unit
    have hmod : m % unit ≤ n % unit := by
      rw [heq] at hm
      omega
    have hstep : n / unit * unit ≤ (n / unit + 1) * unit :=
      Nat.mul_le_mul_right unit (Nat.le_succ _)
    rw [roundTo, roundTo, heq]
    split <;> split <;> omega

/-- What rounds to an even multiple of the unit, or beyond, begins halfway below the multiple. -/
theorem roundTo_lt_iff (hunit : 0 < unit) (q : Nat) :
    roundTo unit n < (2 * q + 2) * unit ↔ 2 * n < (4 * q + 3) * unit := by
  obtain hlt | hge := Nat.lt_or_ge n ((2 * q + 1) * unit)
  · have hround : roundTo unit n ≤ (2 * q + 1) * unit :=
      roundTo_le hunit (Nat.dvd_mul_left _ _) (Nat.le_of_lt hlt)
    simp only [Nat.add_mul, Nat.mul_assoc] at hlt hround ⊢
    omega
  obtain hlt' | hge' := Nat.lt_or_ge n ((2 * q + 2) * unit)
  · have hq : n / unit = 2 * q + 1 := Nat.div_eq_of_lt_le hge hlt'
    have hn := Nat.div_add_mod n unit
    rw [roundTo, hq]
    rw [hq, Nat.mul_comm] at hn
    have hodd : (2 * q + 1) % 2 = 1 := by omega
    simp only [hodd, Nat.one_ne_zero, and_false, or_false]
    simp only [Nat.add_mul, Nat.mul_assoc] at hn ⊢
    split <;> omega
  · have hround : (2 * q + 2) * unit ≤ roundTo unit n :=
      le_roundTo hunit (Nat.dvd_mul_left _ _) hge'
    simp only [Nat.add_mul, Nat.mul_assoc] at hge' hround ⊢
    omega

/-! ## Magnitudes -/

theorem spacing_pos (n : Nat) : 0 < spacing n := Nat.two_pow_pos _

theorem spacing_congr (h : m.log2 = n.log2) : spacing m = spacing n := by
  rw [spacing, spacing, h]

theorem spacing_dvd_two_pow (h : n.log2 ≤ k) : spacing n ∣ 2 ^ k :=
  Nat.pow_dvd_pow 2 (by omega)

theorem spacing_of_lt (h : n < 2 ^ 53) : spacing n = 1 := by
  have hlog : n.log2 < 53 := by
    by_cases h0 : n = 0
    · subst h0
      decide
    · exact (Nat.log2_lt h0).2 h
  have hexponent : n.log2 + 1 - 53 = 0 := by omega
  rw [spacing, hexponent]

theorem log2_le_log2 (h : m ≤ n) : m.log2 ≤ n.log2 := by
  obtain rfl | hm := Nat.eq_zero_or_pos m
  · exact Nat.zero_le _
  · exact (Nat.le_log2 (by omega)).2 (Nat.le_trans (Nat.log2_self_le (by omega)) h)

/-- Rounding keeps the leading bit, or raises it. -/
theorem two_pow_log2_le_roundTo (hn : n ≠ 0) : 2 ^ n.log2 ≤ roundTo (spacing n) n :=
  le_roundTo (spacing_pos n) (spacing_dvd_two_pow (Nat.le_refl _)) (Nat.log2_self_le hn)

theorem roundTo_le_two_pow_log2 (n : Nat) : roundTo (spacing n) n ≤ 2 ^ (n.log2 + 1) :=
  roundTo_le (spacing_pos n) (spacing_dvd_two_pow (Nat.le_succ _)) (Nat.le_of_lt Nat.lt_log2_self)

/-- What a number rounds to is a magnitude. -/
theorem spacing_dvd_roundTo (n : Nat) :
    spacing (roundTo (spacing n) n) ∣ roundTo (spacing n) n := by
  by_cases h0 : n = 0
  · subst h0
    decide
  have hlower := two_pow_log2_le_roundTo h0
  obtain hlt | heq := Nat.lt_or_eq_of_le (roundTo_le_two_pow_log2 n)
  · have hpos : roundTo (spacing n) n ≠ 0 := by
      have := Nat.two_pow_pos n.log2
      omega
    have hlog : (roundTo (spacing n) n).log2 = n.log2 := (Nat.log2_eq_iff hpos).2 ⟨hlower, hlt⟩
    rw [spacing_congr hlog]
    exact dvd_roundTo _ n
  · rw [heq]
    exact spacing_dvd_two_pow (Nat.le_of_eq Nat.log2_two_pow)

theorem roundTo_spacing_mono (h : m ≤ n) : roundTo (spacing m) m ≤ roundTo (spacing n) n := by
  obtain hlog | hlog := Nat.lt_or_eq_of_le (log2_le_log2 h)
  · have hn : n ≠ 0 := by
      rintro rfl
      cases hlog
    calc roundTo (spacing m) m ≤ 2 ^ (m.log2 + 1) := roundTo_le_two_pow_log2 m
      _ ≤ 2 ^ n.log2 := Nat.pow_le_pow_right (by decide) hlog
      _ ≤ roundTo (spacing n) n := two_pow_log2_le_roundTo hn
  · rw [spacing_congr hlog]
    exact roundTo_mono h

/-- A magnitude that is at most `n` is at most what `n` rounds to. -/
theorem le_roundTo_spacing (hm : spacing m ∣ m) (hmn : m ≤ n) : m ≤ roundTo (spacing n) n := by
  obtain hlog | hlog := Nat.lt_or_eq_of_le (log2_le_log2 hmn)
  · have hn : n ≠ 0 := by
      rintro rfl
      cases hlog
    have hbelow : m ≤ 2 ^ n.log2 :=
      Nat.le_trans (Nat.le_of_lt Nat.lt_log2_self) (Nat.pow_le_pow_right (by decide) hlog)
    exact Nat.le_trans hbelow (two_pow_log2_le_roundTo hn)
  · rw [spacing_congr hlog] at hm
    exact le_roundTo (spacing_pos n) hm hmn

/-- What rounds to a power of two with more than 53 zeros, or beyond, begins halfway below it. -/
theorem roundTo_spacing_lt_iff {a j : Nat} (ha : a = j + 54) :
    roundTo (spacing n) n < Nat.pow 2 a ↔ n < 2 ^ a - 2 ^ j := by
  subst ha
  rw [Nat.pow_eq]
  have hj : 0 < 2 ^ j := Nat.two_pow_pos j
  have hpow (i : Nat) : 2 ^ (j + i) = 2 ^ i * 2 ^ j := by rw [Nat.pow_add, Nat.mul_comm]
  obtain hlog | hlog | hlog := Nat.lt_trichotomy n.log2 (j + 53)
  · have hn : n < 2 ^ (j + 53) := Nat.lt_of_lt_of_le Nat.lt_log2_self
      (Nat.pow_le_pow_right (by decide) hlog)
    have hround : roundTo (spacing n) n ≤ 2 ^ (j + 53) :=
      roundTo_le (spacing_pos n) (spacing_dvd_two_pow (Nat.le_of_lt hlog)) (Nat.le_of_lt hn)
    rw [hpow] at hn hround ⊢
    omega
  · have hspacing : spacing n = 2 ^ (j + 1) := by
      rw [spacing, Nat.pow_eq, hlog]
      exact congrArg (2 ^ ·) (by omega)
    have hhalf := roundTo_lt_iff (n := n) (spacing_pos n) (2 ^ 52 - 1)
    rw [hspacing, hpow] at hhalf ⊢
    rw [hpow]
    omega
  · have hn : n ≠ 0 := by
      rintro rfl
      cases hlog
    have hbelow : 2 ^ (j + 54) ≤ 2 ^ n.log2 := Nat.pow_le_pow_right (by decide) hlog
    have hn' := Nat.log2_self_le hn
    have hround := two_pow_log2_le_roundTo hn
    omega

/-! ## Finite and infinite results -/

theorem nearest_eq (n : Nat) : nearest n =
    if roundTo (spacing n) n < Nat.pow 2 1024 then some (roundTo (spacing n) n) else none := rfl

theorem nearest_eq_none_iff : nearest n = none ↔ 2 ^ 1024 - 2 ^ 970 ≤ n := by
  rw [nearest_eq]
  -- with a variable for the exponent the power is not computed
  generalize ha : 1024 = a
  rw [← Nat.not_lt, ← roundTo_spacing_lt_iff ha.symm]
  simp

theorem nearest_eq_some_iff :
    nearest n = some r ↔ roundTo (spacing n) n = r ∧ r < Nat.pow 2 1024 := by
  rw [nearest_eq, Option.ite_none_right_eq_some, Option.some.injEq]
  constructor
  · rintro ⟨hlt, rfl⟩
    exact ⟨rfl, hlt⟩
  · rintro ⟨rfl, hlt⟩
    exact ⟨hlt, rfl⟩

theorem eq_roundTo_of_nearest (h : nearest n = some r) : r = roundTo (spacing n) n :=
  (nearest_eq_some_iff.1 h).1.symm

/-- A magnitude is not rounded again. -/
theorem nearest_of_nearest (h : nearest n = some r) : nearest r = some r := by
  obtain ⟨hround, hlt⟩ := nearest_eq_some_iff.1 h
  have hdvd := spacing_dvd_roundTo n
  rw [hround] at hdvd
  exact nearest_eq_some_iff.2 ⟨roundTo_of_dvd (spacing_pos r) hdvd, hlt⟩

/-- The numbers that round to a magnitude have no gaps between them. -/
theorem nearest_of_between {a b : Nat} (ha : nearest a = some r) (hb : nearest b = some r)
    (han : a ≤ n) (hnb : n ≤ b) : nearest n = some r := by
  obtain ⟨haround, hlt⟩ := nearest_eq_some_iff.1 ha
  have hbround := (nearest_eq_some_iff.1 hb).1
  have hlower := roundTo_spacing_mono han
  have hupper := roundTo_spacing_mono hnb
  rw [haround] at hlower
  rw [hbround] at hupper
  exact nearest_eq_some_iff.2 ⟨Nat.le_antisymm hupper hlower, hlt⟩

/-- No number is more than twice the magnitude that it rounds to. -/
theorem le_two_mul_of_nearest (h : nearest n = some r) : n ≤ 2 * r := by
  by_cases h0 : n = 0
  · subst h0
    exact Nat.zero_le _
  have hlower := two_pow_log2_le_roundTo h0
  have hupper : n < 2 ^ (n.log2 + 1) := Nat.lt_log2_self
  rw [Nat.pow_succ] at hupper
  rw [← eq_roundTo_of_nearest h] at hlower
  omega

/-- Rounding does not go below a magnitude. -/
theorem le_of_nearest (hm : spacing m ∣ m) (hmn : m ≤ n) (h : nearest n = some r) : m ≤ r := by
  rw [eq_roundTo_of_nearest h]
  exact le_roundTo_spacing hm hmn

/-- The numbers up to `2 ^ 53` are magnitudes. -/
theorem spacing_dvd_of_le (h : n ≤ 2 ^ 53) : spacing n ∣ n := by
  obtain hlt | rfl := Nat.lt_or_eq_of_le h
  · rw [spacing_of_lt hlt]
    exact Nat.one_dvd n
  · decide

theorem nearest_of_le (h : n ≤ 2 ^ 53) : nearest n = some n := by
  have hlt {a : Nat} (ha : 53 < a) : n < Nat.pow 2 a :=
    Nat.lt_of_le_of_lt h (Nat.pow_lt_pow_right (by decide) ha)
  rw [nearest_eq, roundTo_of_dvd (spacing_pos n) (spacing_dvd_of_le h)]
  generalize ha : 1024 = a
  exact if_pos (hlt (by omega))

end LineCalc.Binary64
