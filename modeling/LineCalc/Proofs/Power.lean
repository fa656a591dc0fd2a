import LineCalc.Operator.Apply
import LineCalc.Proofs.Decimal
import Mathlib.Algebra.Ring.Parity
import Mathlib.Data.Int.ModEq

/-!
# Powers

The calculator's power is that of the integers as far as binary64 can hold it.  Only the low 32 bits
of the exponent count, as a two's complement number (`effectiveExponent_eq_iff`), and the base is
rounded before it is raised.  `PowerLaw` says what comes out: for the effective exponents up to zero
in all cases, above zero where the base is a magnitude of at most 53 bits or the power is one.

The law holds for powers that are rounded correctly (`IsCorrectlyRounded`), whichever conversion
takes the base into the format, as long as it changes no base of at most `2 ^ 53` and takes none
above `1` to `0` or `1` (`IsConversion`).  Rounding to nearest does so, and the calculator's own
conversion does (`isConversion_nearest`, `isConversion_ofNat`).  A result of at most `2 ^ 53` is not
changed by the shortest decimal either (`shortest_of_le`).
-/

namespace LineCalc

namespace Binary64

variable {n v : Nat}

/-! ## Conversions of the base -/

/-- A conversion of numbers of any size that is exact up to `2 ^ 53` and keeps what is above `1`
there. -/
structure IsConversion (convert : Nat → Magnitude) : Prop where
  exact : ∀ {n}, n ≤ 2 ^ 53 → convert n = some n
  two_le : ∀ {n v}, 2 ≤ n → convert n = some v → 2 ≤ v

theorem isConversion_nearest : IsConversion nearest where
  exact := nearest_of_le
  two_le := le_of_nearest (by decide)

/-- The leading bit is kept, whatever is cut off. -/
theorem two_pow_log2_le_condense (hn : n ≠ 0) : 2 ^ n.log2 ≤ condense n := by
  have hunit : n / Nat.pow 2 (n.log2 + 1 - 64) * Nat.pow 2 (n.log2 + 1 - 64) ≤ condense n := by
    unfold condense
    split
    · exact Nat.mul_le_mul_right _ (by omega)
    · exact Nat.le_refl _
  have hdvd : Nat.pow 2 (n.log2 + 1 - 64) ∣ 2 ^ n.log2 := Nat.pow_dvd_pow 2 (by omega)
  exact (le_div_mul (Nat.two_pow_pos _) hdvd (Nat.log2_self_le hn)).trans hunit

theorem isConversion_ofNat : IsConversion ofNat where
  exact h := by rw [ofNat_of_lt (h.trans_lt (by decide)), nearest_of_le h]
  two_le {n} _ hn h := by
    have hlog : 2 ^ 1 ≤ 2 ^ n.log2 :=
      Nat.pow_le_pow_right (by decide) ((Nat.le_log2 (by omega)).2 hn)
    exact le_of_nearest (by decide) (hlog.trans (two_pow_log2_le_condense (by omega))) h

/-! ## Powers of magnitudes -/

/-- `raise` gives the integral part of a power as if the power were computed exactly and then
rounded once.  At zero, at infinity and for the exponent zero it has the values that the format
fixes.

The reciprocal of a number above one is not rounded to one, so its integral part is the one that
division has. -/
structure IsCorrectlyRounded (raise : Magnitude → Int → Magnitude) : Prop where
  zero : ∀ m, raise m 0 = some 1
  pos : ∀ (x : Nat) {k : Int}, 0 < k → raise (some x) k = nearest (x ^ k.toNat)
  neg : ∀ {x : Nat} {k : Int}, x ≠ 0 → k < 0 → raise (some x) k = some (1 / x ^ k.natAbs)
  zero_neg : ∀ {k : Int}, k < 0 → raise (some 0) k = none
  infinite_pos : ∀ {k : Int}, 0 < k → raise none k = none
  infinite_neg : ∀ {k : Int}, k < 0 → raise none k = some 0

/-- A power that is not computed would be infinite: every finite magnitude is raised exactly and
rounded once. -/
theorem pow_ofNat_succ (x k : Nat) : pow (some x) (.ofNat (k + 1)) = nearest (x ^ (k + 1)) := by
  have hpow : pow (some x) (.ofNat (k + 1)) =
      if x ≤ 1 then some x
      else if 1024 ≤ x.log2 * (k + 1) then none
      else nearest (Nat.pow x (k + 1)) := rfl
  rw [hpow]
  split
  · next hx =>
    obtain rfl | rfl : x = 0 ∨ x = 1 := by omega
    · rw [Nat.zero_pow (Nat.succ_pos k), nearest_of_le (Nat.zero_le _)]
    · rw [Nat.one_pow, nearest_of_le (by decide)]
  · next hx =>
    split
    · next hlog =>
      have hle : 2 ^ (x.log2 * (k + 1)) ≤ x ^ (k + 1) := by
        rw [Nat.pow_mul]
        exact Nat.pow_le_pow_left (Nat.log2_self_le (by omega)) (k + 1)
      have hbound {a : Nat} (ha : a ≤ x.log2 * (k + 1)) : 2 ^ a - 2 ^ 970 ≤ x ^ (k + 1) :=
        (Nat.sub_le _ _).trans ((Nat.pow_le_pow_right (by decide) ha).trans hle)
      exact (nearest_eq_none_iff.2 (hbound hlog)).symm
    · rfl

/-- The reciprocal of a power is less than one unless the power is one. -/
theorem pow_negSucc {x : Nat} (hx : x ≠ 0) (k : Nat) :
    pow (some x) (.negSucc k) = some (1 / x ^ (k + 1)) := by
  match x, hx with
  | 1, _ => rw [Nat.one_pow, Nat.div_self Nat.one_pos, pow]
  | x + 2, _ =>
    have hlt : 1 < (x + 2) ^ (k + 1) := Nat.one_lt_pow (Nat.succ_ne_zero k) (by omega)
    rw [Nat.div_eq_of_lt hlt, pow]

theorem isCorrectlyRounded_pow : IsCorrectlyRounded pow where
  zero m := by cases m <;> rfl
  pos x k hk := by
    obtain ⟨j, rfl⟩ := Int.eq_succ_of_zero_lt hk
    exact pow_ofNat_succ x j
  neg hx hk := by
    obtain ⟨j, rfl⟩ := Int.eq_negSucc_of_lt_zero hk
    exact pow_negSucc hx j
  zero_neg hk := by
    obtain ⟨j, rfl⟩ := Int.eq_negSucc_of_lt_zero hk
    rfl
  infinite_pos hk := by
    obtain ⟨j, rfl⟩ := Int.eq_succ_of_zero_lt hk
    rfl
  infinite_neg hk := by
    obtain ⟨j, rfl⟩ := Int.eq_negSucc_of_lt_zero hk
    rfl

/-! ## Shortest decimals -/

/-- A multiple of ten above `2 ^ 53` rounds to more, since the next magnitude above `2 ^ 53` is
below it. -/
theorem lt_of_nearest_of_dvd (h10 : 10 ∣ n) (hn : 2 ^ 53 < n) (h : nearest n = some v) :
    2 ^ 53 < v := by
  have hle : 2 ^ 53 + 2 ≤ n := by omega
  exact lt_of_lt_of_le (by decide) (le_of_nearest (by decide) hle h)

/-- No decimal with fewer digits rounds to a number that the format holds exactly with all numbers
below it. -/
theorem shortest_of_le (hv : v ≤ 2 ^ 53) : shortest v = v := by
  have hfixed := nearest_of_le hv
  obtain ⟨i, -, hgrid, -⟩ := exists_onGrid?_shortestFrom hfixed (v.log2 / 3 + 1)
  change onGrid? v (10 ^ i) = some (shortest v) at hgrid
  cases i with
  | zero => exact Option.some.inj (hgrid.symm.trans (onGrid?_one hfixed))
  | succ i =>
    have hback := nearest_of_onGrid? hgrid
    have h10 : 10 ∣ shortest v := (dvd_pow_self 10 (Nat.succ_ne_zero i)).trans (dvd_of_onGrid? hgrid)
    obtain hgt | hle := Nat.lt_or_ge (2 ^ 53) (shortest v)
    · exact absurd (lt_of_nearest_of_dvd h10 hgt hback) hv.not_gt
    · exact Option.some.inj ((nearest_of_le hle).symm.trans hback)

end Binary64

namespace Operator

variable {convert : Nat → Binary64.Magnitude} {raise : Binary64.Magnitude → Int → Binary64.Magnitude}
variable {b e k : Int}

/-! ## Effective exponents -/

/-- `k` is the number that the low 32 bits of `e` are in two's complement. -/
structure IsLowBits (e k : Int) : Prop where
  lower : -2 ^ 31 ≤ k
  upper : k < 2 ^ 31
  modEq : k ≡ e [ZMOD 2 ^ 32]

theorem effectiveExponent_eq_iff : effectiveExponent e = k ↔ IsLowBits e k := by
  have hmod : k ≡ e [ZMOD 2 ^ 32] ↔ ((Nat.pow 2 32 : Nat) : Int) ∣ k - e := by
    rw [Int.modEq_comm, Int.modEq_iff_dvd]
    rfl
  rw [effectiveExponent, Int.bmod_eq_iff (by decide)]
  constructor
  · rintro ⟨hlower, hupper, hdvd⟩
    exact ⟨hlower, hupper, hmod.2 hdvd⟩
  · rintro ⟨hlower, hupper, hmodEq⟩
    exact ⟨hlower, hupper, hmod.1 hmodEq⟩

theorem existsUnique_isLowBits (e : Int) : ∃! k, IsLowBits e k :=
  ⟨effectiveExponent e, effectiveExponent_eq_iff.1 rfl,
    fun _ hk => (effectiveExponent_eq_iff.2 hk).symm⟩

theorem effectiveExponent_add_mul (e m : Int) :
    effectiveExponent (e + m * 2 ^ 32) = effectiveExponent e :=
  Int.add_mul_bmod_self_right e m (Nat.pow 2 32)

/-! ## Results -/

/-- A result takes the sign that the power of the integers has. -/
theorem signed_natAbs_pow (b k : Int) :
    (if b < 0 ∧ k % 2 = 1 then -((b.natAbs ^ k.natAbs : Nat) : Int)
      else (b.natAbs ^ k.natAbs : Nat)) = b ^ k.natAbs := by
  have hparity : k % 2 = 1 ↔ Odd k.natAbs := by rw [Nat.odd_iff]; omega
  obtain hb | hb := lt_or_ge b 0
  · obtain ⟨c, rfl⟩ : ∃ c : Nat, b = -(c : Int) := ⟨b.natAbs, by omega⟩
    rw [Int.natAbs_neg, Int.natAbs_natCast, Nat.cast_pow]
    obtain heven | hodd := Nat.even_or_odd k.natAbs
    · rw [if_neg (fun h => Nat.not_odd_iff_even.2 heven (hparity.1 h.2)), heven.neg_pow]
    · rw [if_pos ⟨hb, hparity.2 hodd⟩, hodd.neg_pow]
  · rw [if_neg (fun h => absurd h.1 hb.not_gt), Nat.cast_pow, Int.natAbs_of_nonneg hb]

theorem power_of_none (hk : effectiveExponent e = k) (h : raise (convert b.natAbs) k = none) :
    power convert raise b e = .error .powerOverflow := by
  subst hk
  simp only [power, h]

theorem power_of_some {v : Nat} (hk : effectiveExponent e = k)
    (h : raise (convert b.natAbs) k = some v) :
    power convert raise b e =
      .ok (if b < 0 ∧ k % 2 = 1 then -(Binary64.shortest v : Int) else Binary64.shortest v) := by
  subst hk
  simp only [power, h]

/-- A power overflows exactly if its magnitude is infinite. -/
theorem power_eq_error_iff (hk : effectiveExponent e = k) :
    power convert raise b e = .error .powerOverflow ↔ raise (convert b.natAbs) k = none := by
  cases hraise : raise (convert b.natAbs) k with
  | none => exact iff_of_true (power_of_none hk hraise) rfl
  | some v => simp only [power_of_some hk hraise, reduceCtorEq]

/-- Exponents with the same low 32 bits give one power. -/
theorem power_add_mul (b e m : Int) :
    power convert raise b (e + m * 2 ^ 32) = power convert raise b e := by
  rw [power, power, effectiveExponent_add_mul]

/-- Where the magnitude of the power comes out exactly and is small, so does the power. -/
theorem power_of_raise_eq (hk : effectiveExponent e = k)
    (hraise : raise (convert b.natAbs) k = some (b.natAbs ^ k.natAbs))
    (hle : b.natAbs ^ k.natAbs ≤ 2 ^ 53) : power convert raise b e = .ok (b ^ k.natAbs) := by
  rw [power_of_some hk hraise, Binary64.shortest_of_le hle, signed_natAbs_pow]

/-! ## The law -/

/-- What the power of `b` is for the effective exponent `k`.  The powers that overflow are those
that would round to `2 ^ 1024`: from halfway between it and the greatest magnitude,
`2 ^ 1024 - 2 ^ 971`. -/
structure PowerLaw (b k : Int) (result : Except ArithmeticError Int) : Prop where
  zero : k = 0 → result = .ok 1
  neg_zero : k < 0 → b = 0 → result = .error .powerOverflow
  neg_one : k < 0 → b = 1 ∨ b = -1 → result = .ok (b ^ k.natAbs)
  neg_large : k < 0 → 2 ≤ b.natAbs → result = .ok 0
  pos_exact : 0 < k → b.natAbs ^ k.toNat ≤ 2 ^ 53 → result = .ok (b ^ k.toNat)
  pos_overflow : 0 < k → b.natAbs ≤ 2 ^ 53 →
    (result = .error .powerOverflow ↔ 2 ^ 1024 - 2 ^ 970 ≤ b.natAbs ^ k.toNat)

section Law

variable (hconvert : Binary64.IsConversion convert) (hraise : Binary64.IsCorrectlyRounded raise)

include hconvert hraise in
theorem raise_of_pos (hpos : 0 < k) (hb : b.natAbs ≤ 2 ^ 53) :
    raise (convert b.natAbs) k = Binary64.nearest (b.natAbs ^ k.toNat) := by
  rw [hconvert.exact hb, hraise.pos _ hpos]

variable (hk : effectiveExponent e = k)

include hraise hk

theorem power_of_zero (hzero : k = 0) : power convert raise b e = .ok 1 := by
  subst hzero
  rw [power_of_raise_eq hk (hraise.zero _) Nat.one_le_two_pow, Int.natAbs_zero, pow_zero]

include hconvert

/-! ### Negative exponents -/

theorem zero_power_of_neg (hneg : k < 0) :
    power convert raise 0 e = .error .powerOverflow := by
  refine power_of_none hk ?_
  rw [Int.natAbs_zero, hconvert.exact (Nat.zero_le _), hraise.zero_neg hneg]

theorem power_of_neg_of_natAbs_eq_one (hneg : k < 0) (hb : b.natAbs = 1) :
    power convert raise b e = .ok (b ^ k.natAbs) := by
  have hone : b.natAbs ^ k.natAbs = 1 := by rw [hb, Nat.one_pow]
  refine power_of_raise_eq hk ?_ (hone ▸ Nat.one_le_two_pow)
  rw [hb, hconvert.exact Nat.one_le_two_pow, hraise.neg Nat.one_ne_zero hneg, Nat.one_pow]

theorem power_of_neg_of_two_le (hneg : k < 0) (hb : 2 ≤ b.natAbs) :
    power convert raise b e = .ok 0 := by
  -- whether or not the base is infinite in the format, nothing is left of its reciprocal
  have hzero : raise (convert b.natAbs) k = some 0 := by
    cases hv : convert b.natAbs with
    | none => exact hraise.infinite_neg hneg
    | some v =>
      have hv : 2 ≤ v := hconvert.two_le hb hv
      have hlt : 1 < v ^ k.natAbs := Nat.one_lt_pow (by omega) hv
      rw [hraise.neg (by omega) hneg, Nat.div_eq_of_lt hlt]
  rw [power_of_some hk hzero, Binary64.shortest_of_le (Nat.zero_le _), Nat.cast_zero, Int.neg_zero,
    ite_self]

/-! ### Positive exponents -/

theorem power_of_pos_of_le (hpos : 0 < k) (hle : b.natAbs ^ k.toNat ≤ 2 ^ 53) :
    power convert raise b e = .ok (b ^ k.toNat) := by
  have hnat : k.toNat = k.natAbs := by omega
  have hb : b.natAbs ≤ 2 ^ 53 := (Nat.le_self_pow (by omega) _).trans hle
  have hpow := raise_of_pos hconvert hraise hpos hb
  rw [Binary64.nearest_of_le hle] at hpow
  rw [hnat] at hle hpow ⊢
  exact power_of_raise_eq hk hpow hle

theorem power_of_pos_eq_error_iff (hpos : 0 < k) (hb : b.natAbs ≤ 2 ^ 53) :
    power convert raise b e = .error .powerOverflow ↔ 2 ^ 1024 - 2 ^ 970 ≤ b.natAbs ^ k.toNat := by
  rw [power_eq_error_iff hk, raise_of_pos hconvert hraise hpos hb, Binary64.nearest_eq_none_iff]

/-! ### All exponents -/

theorem powerLaw_of_effectiveExponent : PowerLaw b k (power convert raise b e) where
  zero := power_of_zero hraise hk
  neg_zero hneg hb := hb ▸ zero_power_of_neg hconvert hraise hk hneg
  neg_one hneg hb := power_of_neg_of_natAbs_eq_one hconvert hraise hk hneg (by omega)
  neg_large := power_of_neg_of_two_le hconvert hraise hk
  pos_exact := power_of_pos_of_le hconvert hraise hk
  pos_overflow := power_of_pos_eq_error_iff hconvert hraise hk

end Law

/-- The law holds for all powers that are correctly rounded, whichever conversion they use. -/
theorem power_powerLaw (hconvert : Binary64.IsConversion convert)
    (hraise : Binary64.IsCorrectlyRounded raise) (b e : Int) :
    (∃! k, IsLowBits e k) ∧ (∀ k, IsLowBits e k → PowerLaw b k (power convert raise b e)) ∧
      ∀ m, power convert raise b (e + m * 2 ^ 32) = power convert raise b e :=
  ⟨existsUnique_isLowBits e,
    fun _ hk => powerLaw_of_effectiveExponent hconvert hraise (effectiveExponent_eq_iff.2 hk),
    power_add_mul b e⟩

/-- The law for a base that is rounded to nearest. -/
theorem power_nearest_powerLaw (hraise : Binary64.IsCorrectlyRounded raise) (hk : IsLowBits e k) :
    PowerLaw b k (power Binary64.nearest raise b e) :=
  (power_powerLaw Binary64.isConversion_nearest hraise b e).2.1 k hk

/-- Every exponent counts as one number of 32 bits, the power follows the law for it, and so
exponents that agree in their low 32 bits give one power. -/
theorem apply_pow_powerLaw (b e : Int) :
    (∃! k, IsLowBits e k) ∧ (∀ k, IsLowBits e k → PowerLaw b k (apply .pow b e)) ∧
      ∀ m, apply .pow b (e + m * 2 ^ 32) = apply .pow b e :=
  power_powerLaw Binary64.isConversion_ofNat Binary64.isCorrectlyRounded_pow b e

/-- An exponent of `2 ^ 31` counts as `-2 ^ 31`, and one just above `2 ^ 32` as a small one. -/
theorem apply_pow_wrapped :
    apply .pow 7 (2 ^ 31) = .ok 0 ∧ apply .pow 0 (2 ^ 31) = .error .powerOverflow ∧
      apply .pow (-3) (2 ^ 32 + 3) = .ok (-27) := by
  have hhalf : IsLowBits (2 ^ 31) (-2 ^ 31) := ⟨by decide, by decide, by decide⟩
  have hfull : IsLowBits (2 ^ 32 + 3) 3 := ⟨by decide, by decide, by decide⟩
  have hseven := (apply_pow_powerLaw 7 (2 ^ 31)).2.1 _ hhalf
  have hzero := (apply_pow_powerLaw 0 (2 ^ 31)).2.1 _ hhalf
  have hthree := (apply_pow_powerLaw (-3) (2 ^ 32 + 3)).2.1 _ hfull
  exact ⟨hseven.neg_large (by decide) (by decide), hzero.neg_zero (by decide) rfl,
    hthree.pos_exact (by decide) (by decide)⟩

end Operator

end LineCalc
