import LineCalc.Proofs.Power
import Mathlib.Algebra.Ring.Int.Parity

/-!
# Rounding and signs of powers

A power that is correctly rounded is rounded once.  What comes out is a magnitude
(`IsCorrectlyRounded.nearest_of_eq_some`), the decimal that is written for it reads back as that
magnitude, and so the first power of a result is the result again if the conversion of the base
rounds the result to nearest, and only then (`power_one_eq_iff`).  The sign of a base changes the
sign of an odd power and nothing else, however bases are converted and powers are rounded
(`power_neg`).

With a conversion that rounds all numbers to nearest the first power changes no result
(`power_rounds_once`).  The calculator's own conversion rounds most numbers to nearest, but not all,
so its results may still change (`exists_apply_pow_one_ne`).
-/

namespace LineCalc

namespace Binary64

variable {raise : Magnitude → Int → Magnitude} {k : Int} {m : Magnitude} {n v : Nat}

namespace IsCorrectlyRounded

theorem one (h : IsCorrectlyRounded raise) (m : Magnitude) : raise m 1 = m.bind nearest := by
  cases m with
  | none => exact h.infinite_pos Int.one_pos
  | some x =>
    have hone : (1 : Int).toNat = 1 := rfl
    rw [h.pos x Int.one_pos, hone, Nat.pow_one, Option.bind_some]

/-- A power is a magnitude. -/
theorem nearest_of_eq_some (h : IsCorrectlyRounded raise) (hv : raise m k = some v) :
    nearest v = some v := by
  -- what comes out up to the exponent zero is 0 or 1, unless it is infinite
  have hsmall (n : Nat) (hn : n ≤ 1) (hraise : raise m k = some n) : nearest v = some v := by
    obtain rfl : n = v := Option.some.inj (hraise.symm.trans hv)
    exact nearest_of_le (hn.trans Nat.one_le_two_pow)
  obtain hneg | rfl | hpos := lt_trichotomy k 0
  · cases m with
    | none => exact hsmall 0 (Nat.zero_le 1) (h.infinite_neg hneg)
    | some x =>
      by_cases hx : x = 0
      · rw [hx, h.zero_neg hneg] at hv
        cases hv
      · exact hsmall _ (Nat.div_le_self 1 _) (h.neg hx hneg)
  · exact hsmall 1 (Nat.le_refl 1) (h.zero m)
  · cases m with
    | none =>
      rw [h.infinite_pos hpos] at hv
      cases hv
    | some x =>
      rw [h.pos x hpos] at hv
      exact nearest_of_nearest hv

end IsCorrectlyRounded

/-- Different magnitudes have different decimals. -/
theorem shortest_injective {w : Nat} (hv : nearest v = some v) (hw : nearest w = some w)
    (h : shortest v = shortest w) : v = w := by
  have hback := (isShortest_shortest hv).readsBack
  rw [h, (isShortest_shortest hw).readsBack] at hback
  exact (Option.some.inj hback).symm

/-- The conversion of numbers of any size gives magnitudes. -/
theorem nearest_of_ofNat (h : ofNat n = some v) : nearest v = some v :=
  nearest_of_nearest h

end Binary64

namespace Operator

open Binary64 (IsCorrectlyRounded nearest shortest)

variable {convert : Nat → Binary64.Magnitude} {raise : Binary64.Magnitude → Int → Binary64.Magnitude}
variable {b e r : Int}

theorem power_eq_ok_iff : power convert raise b e = .ok r ↔
    ∃ v, raise (convert b.natAbs) (effectiveExponent e) = some v ∧
      r = if b < 0 ∧ effectiveExponent e % 2 = 1 then -(shortest v : Int) else shortest v := by
  constructor
  · intro h
    cases hraise : raise (convert b.natAbs) (effectiveExponent e) with
    | none =>
      rw [power_of_none rfl hraise] at h
      cases h
    | some v =>
      rw [power_of_some rfl hraise] at h
      exact ⟨v, rfl, (Except.ok.inj h).symm⟩
  · rintro ⟨v, hv, rfl⟩
    exact power_of_some rfl hv

/-! ## The first power of a result -/

section FirstPower

variable (hraise : IsCorrectlyRounded raise)

include hraise

theorem power_one_eq_ok_iff : power convert raise b 1 = .ok r ↔
    ∃ v, (convert b.natAbs).bind nearest = some v ∧
      r = if b < 0 then -(shortest v : Int) else shortest v := by
  have hone : effectiveExponent 1 = 1 := by decide
  have hodd : (1 : Int) % 2 = 1 := rfl
  simp only [power_eq_ok_iff, hone, hodd, and_true, hraise.one]

/-- Without its sign a result is the decimal of a magnitude. -/
theorem exists_natAbs_eq_shortest (h : power convert raise b e = .ok r) :
    ∃ v, nearest v = some v ∧ r.natAbs = shortest v := by
  obtain ⟨v, hv, rfl⟩ := power_eq_ok_iff.1 h
  refine ⟨v, hraise.nearest_of_eq_some hv, ?_⟩
  split
  · rw [Int.natAbs_neg, Int.natAbs_natCast]
  · rw [Int.natAbs_natCast]

/-- The first power of a result is the result exactly if the conversion rounds it to nearest. -/
theorem power_one_eq_iff (hconvert : ∀ n v, convert n = some v → nearest v = some v)
    (h : power convert raise b e = .ok r) :
    power convert raise r 1 = .ok r ↔ convert r.natAbs = nearest r.natAbs := by
  obtain ⟨v, hv, hr⟩ := exists_natAbs_eq_shortest hraise h
  have hback : nearest r.natAbs = some v := hr ▸ (Binary64.isShortest_shortest hv).readsBack
  rw [hback]
  constructor
  · intro hone
    obtain ⟨w, hw, hrw⟩ := (power_one_eq_ok_iff hraise).1 hone
    obtain ⟨x, hx, hxw⟩ := Option.bind_eq_some_iff.1 hw
    have hfixed := hconvert _ _ hx
    obtain rfl : x = w := Option.some.inj (hfixed.symm.trans hxw)
    have hshortest : shortest x = shortest v := by
      rw [← hr]
      split at hrw <;> omega
    rw [hx, Binary64.shortest_injective hfixed hv hshortest]
  · intro hround
    refine (power_one_eq_ok_iff hraise).2 ⟨v, ?_, ?_⟩
    · rw [hround, Option.bind_some, hv]
    · split <;> omega

theorem power_one_of_nearest (hconvert : ∀ n, convert n = nearest n)
    (h : power convert raise b e = .ok r) : power convert raise r 1 = .ok r := by
  have hfixed (n v : Nat) (hv : convert n = some v) : nearest v = some v :=
    Binary64.nearest_of_nearest ((hconvert n).symm.trans hv)
  exact (power_one_eq_iff hraise hfixed h).2 (hconvert _)

end FirstPower

/-- Where the results of the calculator stay as they are. -/
theorem apply_pow_one_eq_iff (h : apply .pow b e = .ok r) :
    apply .pow r 1 = .ok r ↔ Binary64.ofNat r.natAbs = nearest r.natAbs := by
  rw [apply] at h ⊢
  exact power_one_eq_iff Binary64.isCorrectlyRounded_pow (fun _ _ => Binary64.nearest_of_ofNat) h

/-- A result of 130 bits that is not rounded to nearest. -/
theorem exists_apply_pow_one_ne :
    ∃ b r, apply .pow b 1 = .ok r ∧ apply .pow r 1 ≠ .ok r := by
  refine ⟨866215163614265000000000000000000000001, 866215163614265000000000000000000000000,
    ?_, ?_⟩
  · decide +kernel
  · decide +kernel

/-! ## The sign of the base -/

theorem effectiveExponent_emod_two (e : Int) : effectiveExponent e % 2 = e % 2 :=
  (effectiveExponent_eq_iff.1 rfl).modEq.of_dvd (by decide)

theorem power_neg (hb : b ≠ 0) (e : Int) :
    power convert raise (-b) e =
      (power convert raise b e).map fun r => if e % 2 = 1 then -r else r := by
  have hnatAbs : (-b).natAbs = b.natAbs := Int.natAbs_neg b
  cases hraise : raise (convert b.natAbs) (effectiveExponent e) with
  | none =>
    rw [power_of_none rfl hraise, power_of_none rfl (hnatAbs ▸ hraise)]
    rfl
  | some v =>
    rw [power_of_some rfl hraise, power_of_some rfl (hnatAbs ▸ hraise), effectiveExponent_emod_two]
    refine congrArg Except.ok ?_
    by_cases hodd : e % 2 = 1
    · simp only [hodd, and_true, if_true]
      split <;> split <;> omega
    · simp only [hodd, and_false, if_false]

theorem power_neg_of_even (hb : b ≠ 0) (he : Even e) :
    power convert raise (-b) e = power convert raise b e := by
  have heven : ¬ e % 2 = 1 := by rw [Int.even_iff.1 he]; decide
  rw [power_neg hb]
  simp only [heven, if_false]
  cases power convert raise b e <;> rfl

theorem power_neg_of_odd (hb : b ≠ 0) (he : Odd e) :
    power convert raise (-b) e = (power convert raise b e).map fun r => -r := by
  rw [power_neg hb]
  simp only [Int.odd_iff.1 he, if_true]

/-- The negated base overflows where the base does. -/
theorem power_neg_eq_error_iff : power convert raise (-b) e = .error .powerOverflow ↔
    power convert raise b e = .error .powerOverflow := by
  rw [power_eq_error_iff rfl, power_eq_error_iff rfl, Int.natAbs_neg]

theorem apply_pow_neg (hb : b ≠ 0) (e : Int) :
    apply .pow (-b) e = (apply .pow b e).map fun r => if e % 2 = 1 then -r else r :=
  power_neg hb e

/-- Powers are rounded once and keep the sign of the power of the integers.  If they are correctly
rounded and the conversion rounds to nearest, the first power changes no result.  In any case the
negated base has the same result for an even exponent, the negated result for an odd one, and none
where the base has none. -/
theorem power_rounds_once (convert : Nat → Binary64.Magnitude)
    (raise : Binary64.Magnitude → Int → Binary64.Magnitude) :
    (IsCorrectlyRounded raise → (∀ n, convert n = nearest n) →
      ∀ b e r, power convert raise b e = .ok r → power convert raise r 1 = .ok r) ∧
    ∀ b e, b ≠ 0 →
      (Even e → power convert raise (-b) e = power convert raise b e) ∧
      (Odd e → power convert raise (-b) e = (power convert raise b e).map fun r => -r) ∧
      (power convert raise (-b) e = .error .powerOverflow ↔
        power convert raise b e = .error .powerOverflow) :=
  ⟨fun hraise hconvert _ _ _ => power_one_of_nearest hraise hconvert,
    fun _ _ hb => ⟨power_neg_of_even hb, power_neg_of_odd hb, power_neg_eq_error_iff⟩⟩

/-- An odd power of more than 53 bits, of which the calculator's conversion rounds the base and the
result to nearest, and its sign in the calculator itself. -/
theorem power_rounds_once_of_three :
    Binary64.ofNat 3 = nearest 3 ∧
    Binary64.ofNat 36472996377170790000 = nearest 36472996377170790000 ∧
    power nearest Binary64.pow 3 41 = .ok 36472996377170790000 ∧
    power nearest Binary64.pow 36472996377170790000 1 = .ok 36472996377170790000 ∧
    apply .pow (-3) 41 = .ok (-36472996377170790000) := by
  have hone := (power_rounds_once nearest Binary64.pow).1 Binary64.isCorrectlyRounded_pow
    fun n => rfl
  have hneg := (power_rounds_once Binary64.ofNat Binary64.pow).2 3 41 (by decide)
  have hnearest : power nearest Binary64.pow 3 41 = .ok 36472996377170790000 := by decide +kernel
  have hofNat : power Binary64.ofNat Binary64.pow 3 41 = .ok 36472996377170790000 := by
    decide +kernel
  have hodd := hneg.2.1 (by decide)
  rw [hofNat] at hodd
  exact ⟨by decide +kernel, by decide +kernel, hnearest, hone 3 41 _ hnearest, hodd⟩

end Operator

end LineCalc
