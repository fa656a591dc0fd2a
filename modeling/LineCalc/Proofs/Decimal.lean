import LineCalc.Binary64.Rounding
import LineCalc.Binary64.Shortest

/-!
# The shortest decimal

`shortest v` has as few digits as a decimal can have that reads back as the magnitude `v`, and no
decimal with as few digits is closer to `v` (`isShortest_shortest`).

The search for it tries the multiples of one power of ten after the other, and of each power only
the two multiples around `v`.  That is enough because the numbers that round to `v` have no gaps: if
any multiple is among them, so is one of the two (`onGrid?_ne_none`).
-/

namespace LineCalc.Binary64

variable {d j k n unit v : Nat}

/-- `d` is a shortest decimal of `v`.  Of the numbers that round to `v` those with the fewest digits
end in the most zeros. -/
structure IsShortest (v d : Nat) : Prop where
  readsBack : nearest d = some v
  coarsest : ∀ n k, nearest n = some v → 10 ^ k ∣ n → 10 ^ k ∣ d
  closest : ∀ n, nearest n = some v → (∀ k, 10 ^ k ∣ d → 10 ^ k ∣ n) →
    ((d : Int) - v).natAbs ≤ ((n : Int) - v).natAbs

/-! ## The multiples around a magnitude -/

theorem above_le (hunit : 0 < unit) (hdvd : unit ∣ n) (h : v < n) : v / unit * unit + unit ≤ n := by
  obtain ⟨q, rfl⟩ := hdvd
  rw [← Nat.succ_mul, Nat.mul_comm unit q]
  exact Nat.mul_le_mul_right unit ((Nat.div_lt_iff_lt_mul hunit).2 (Nat.mul_comm unit q ▸ h))

theorem nearest_below (hunit : 0 < unit) (hv : nearest v = some v) (hn : nearest n = some v)
    (hdvd : unit ∣ n) (h : n ≤ v) : nearest (v / unit * unit) = some v :=
  nearest_of_between hn hv (le_div_mul hunit hdvd h) (Nat.div_mul_le_self v unit)

theorem nearest_above (hunit : 0 < unit) (hv : nearest v = some v) (hn : nearest n = some v)
    (hdvd : unit ∣ n) (h : v < n) : nearest (v / unit * unit + unit) = some v :=
  nearest_of_between hv hn (Nat.le_of_lt (Nat.lt_div_mul_add hunit)) (above_le hunit hdvd h)

/-! ## One grid -/

theorem onGrid?_cases (h : onGrid? v unit = some d) :
    (d = v / unit * unit ∧ nearest d = some v ∧
      (2 * (v % unit) < unit ∨ nearest (v / unit * unit + unit) ≠ some v)) ∨
    (d = v / unit * unit + unit ∧ nearest d = some v ∧
      (nearest (v / unit * unit) = some v → unit ≤ 2 * (v % unit))) := by
  simp only [onGrid?] at h
  split at h
  · next hbelow =>
    cases h
    exact Or.inl ⟨rfl, hbelow⟩
  · next hbelow =>
    split at h
    · next habove =>
      cases h
      refine Or.inr ⟨rfl, habove, fun hn => ?_⟩
      exact Nat.le_of_not_lt fun hlt => hbelow ⟨hn, Or.inl hlt⟩
    · cases h

theorem nearest_of_onGrid? (h : onGrid? v unit = some d) : nearest d = some v := by
  obtain ⟨-, hd, -⟩ | ⟨-, hd, -⟩ := onGrid?_cases h
  · exact hd
  · exact hd

theorem dvd_of_onGrid? (h : onGrid? v unit = some d) : unit ∣ d := by
  obtain ⟨rfl, -⟩ | ⟨rfl, -⟩ := onGrid?_cases h
  · exact Nat.dvd_mul_left unit _
  · exact Nat.dvd_add (Nat.dvd_mul_left unit _) (Nat.dvd_refl unit)

/-- A grid without a hit has no number that rounds to `v`. -/
theorem onGrid?_ne_none (hunit : 0 < unit) (hv : nearest v = some v) (hn : nearest n = some v)
    (hdvd : unit ∣ n) : onGrid? v unit ≠ none := by
  intro hnone
  simp only [onGrid?] at hnone
  split at hnone
  · cases hnone
  · next hbelow =>
    split at hnone
    · cases hnone
    · next habove =>
      obtain hlt | hle := Nat.lt_or_ge v n
      · exact habove (nearest_above hunit hv hn hdvd hlt)
      · exact hbelow ⟨nearest_below hunit hv hn hdvd hle, Or.inr habove⟩

theorem natAbs_le_of_onGrid? (hunit : 0 < unit) (hv : nearest v = some v)
    (h : onGrid? v unit = some d) (hn : nearest n = some v) (hdvd : unit ∣ n) :
    ((d : Int) - v).natAbs ≤ ((n : Int) - v).natAbs := by
  have hmod : v / unit * unit + v % unit = v := Nat.div_add_mod' v unit
  have hlt : v % unit < unit := Nat.mod_lt v hunit
  obtain hnv | hnv := Nat.lt_or_ge v n
  · have hge : v / unit * unit + unit ≤ n := above_le hunit hdvd hnv
    have habove := nearest_above hunit hv hn hdvd hnv
    obtain ⟨rfl, -, hnear | hnone⟩ | ⟨rfl, -, -⟩ := onGrid?_cases h
    · omega
    · exact absurd habove hnone
    · omega
  · have hle : n ≤ v / unit * unit := le_div_mul hunit hdvd hnv
    have hbelow := nearest_below hunit hv hn hdvd hnv
    obtain ⟨rfl, -, -⟩ | ⟨rfl, -, hfar⟩ := onGrid?_cases h
    · omega
    · have := hfar hbelow
      omega

/-! ## The search -/

theorem onGrid?_one (hv : nearest v = some v) : onGrid? v 1 = some v := by
  simp [onGrid?, hv, Nat.mod_one]

/-- The search stops at the coarsest grid with a hit. -/
theorem exists_onGrid?_shortestFrom (hv : nearest v = some v) (j : Nat) :
    ∃ i ≤ j, onGrid? v (10 ^ i) = some (shortestFrom v j) ∧
      ∀ k, i < k → k ≤ j → onGrid? v (10 ^ k) = none := by
  induction j with
  | zero => exact ⟨0, Nat.le_refl 0, onGrid?_one hv, fun k h0 hk => by omega⟩
  | succ j ih =>
    have hpow : Nat.pow 10 (j + 1) = 10 ^ (j + 1) := rfl
    rw [shortestFrom, hpow]
    cases hgrid : onGrid? v (10 ^ (j + 1)) with
    | some d => exact ⟨j + 1, Nat.le_refl _, hgrid, fun k hk hkj => by omega⟩
    | none =>
      obtain ⟨i, hij, hi, hnone⟩ := ih
      refine ⟨i, Nat.le_succ_of_le hij, hi, fun k hik hkj => ?_⟩
      obtain rfl | hlt := Nat.eq_or_lt_of_le hkj
      · exact hgrid
      · exact hnone k hik (Nat.le_of_lt_succ hlt)

/-- The search begins with a power of ten above `v`. -/
theorem lt_ten_pow (v : Nat) : v < 10 ^ (v.log2 / 3 + 1) :=
  calc v < 2 ^ (v.log2 + 1) := Nat.lt_log2_self
    _ ≤ 2 ^ (3 * (v.log2 / 3 + 1)) := Nat.pow_le_pow_right (by decide) (by omega)
    _ = 8 ^ (v.log2 / 3 + 1) := Nat.pow_mul 2 3 _
    _ ≤ 10 ^ (v.log2 / 3 + 1) := Nat.pow_le_pow_left (by decide) _

/-- No multiple of a greater power of ten rounds to `v`, unless `v` is zero. -/
theorem eq_zero_of_ten_pow_dvd (hn : nearest n = some v) (hk : v.log2 / 3 + 1 < k)
    (hdvd : 10 ^ k ∣ n) : v = 0 := by
  have hpow : 10 ^ (v.log2 / 3 + 1) * 10 ≤ 10 ^ k := by
    rw [← Nat.pow_succ]
    exact Nat.pow_le_pow_right (by decide) hk
  have hle := le_two_mul_of_nearest hn
  have hlt := lt_ten_pow v
  obtain rfl : n = 0 := Nat.eq_zero_of_dvd_of_lt hdvd (by omega)
  exact Option.some.inj (hn.symm.trans (nearest_of_le (Nat.zero_le _)))

/-- The decimal that is written for a magnitude reads back as the magnitude, and it is a shortest
one. -/
theorem isShortest_shortest (hv : nearest v = some v) : IsShortest v (shortest v) := by
  obtain ⟨i, hi, hgrid, hnone⟩ := exists_onGrid?_shortestFrom hv (v.log2 / 3 + 1)
  have hpos (k : Nat) : 0 < 10 ^ k := Nat.pow_pos (by decide)
  have hback : nearest (shortest v) = some v := nearest_of_onGrid? hgrid
  have hdvd : 10 ^ i ∣ shortest v := dvd_of_onGrid? hgrid
  refine ⟨hback, fun n k hn hkn => ?_, fun n hn hzeros => ?_⟩
  · obtain hki | hik := Nat.lt_or_ge i k
    · obtain hjk | hkj := Nat.lt_or_ge (v.log2 / 3 + 1) k
      · have hzero : v = 0 := eq_zero_of_ten_pow_dvd hn hjk hkn
        have hle := le_two_mul_of_nearest hback
        rw [show shortest v = 0 by omega]
        exact Nat.dvd_zero _
      · exact absurd (hnone k hki hkj) (onGrid?_ne_none (hpos k) hv hn hkn)
    · exact Nat.dvd_trans (Nat.pow_dvd_pow 10 hik) hdvd
  · exact natAbs_le_of_onGrid? (hpos i) hv hgrid hn (hzeros i hdvd)

end LineCalc.Binary64
