import LineCalc.Proofs.Evaluation
import LineCalc.Proofs.Faults
import LineCalc.Proofs.Settled

/-!
# Which texts have a value

Nothing checks the order of the tokens: a text is refused if its parentheses are not balanced, or if
the postfix form does not leave one value on the stack.  The postfix form of settled tokens has one
operand more than its operators take, and the surplus of the tokens on top (`weight_ofTokensWith`).
So a text with a value has as many missing operands as operands side by side, and if it has none of
them it is a text of the grammar (`order_of_value`).  A text with equally many of both may have a
value, as `2 3 *` has (`value_two_three_mul`).
-/

namespace LineCalc

open Token

namespace Postfix

/-! ## The weight of the yard -/

theorem weight_release (ops : List Operator) (out : Postfix) :
    weight (Yard.release ops out) = weight out - ops.length := by
  induction ops generalizing out with
  | nil => simp [Yard.release]
  | cons o ops ih =>
    have hcons : Yard.release (o :: ops) out = Yard.release ops (.op o :: out) := by
      simp [Yard.release]
    rw [hcons, ih, weight, List.length_cons]
    omega

namespace Yard

/-- The number of operators that have not been written. -/
def waiting (y : Yard) : Nat := y.ops.length + y.outer.flatten.length

/-- The weight of the output when all operators will have been written. -/
def weight (y : Yard) : Int := Postfix.weight y.out - y.waiting

theorem weight_stepOperator (y : Yard) (b : Bool) (o : Operator) :
    (y.stepOperator b o).weight = y.weight - if o = .sub ∧ y.signed then 0 else 1 := by
  have hlength := congrArg List.length
    (List.takeWhile_append_dropWhile (p := fun a : Operator => o.precedence ≤ a.precedence)
      (l := y.ops))
  rw [List.length_append] at hlength
  simp only [weight, waiting, stepOperator]
  split <;> simp [Postfix.weight, weight_release] <;> omega

/-- Whether a minus is a sign where the yard stands, as far as that matters in settled tokens. -/
structure StandsAt (y : Yard) (p : Sign.Place) : Prop where
  opening : p = .opening → y.signed = true
  operand : p = .operand → y.signed = false

variable {signs : Operator → Bool} {p : Sign.Place} {y y' : Yard} {ks : List Token}

theorem standsAt_opening (h : y.signed = true) : y.StandsAt .opening where
  opening _ := h
  operand hp := by cases hp

theorem standsAt_operator (y : Yard) : y.StandsAt .operator where
  opening hp := by cases hp
  operand hp := by cases hp

theorem standsAt_operand (h : y.signed = false) : y.StandsAt .operand where
  opening hp := by cases hp
  operand _ := h

theorem weight_op (hp : y.StandsAt p) {o : Operator} (hk : p.Admits (.op o)) (b : Bool) :
    (y.stepOperator b o).weight + 1 = y.weight + p.expects.toNat + gain p.expects (.op o) := by
  -- An operator that is no sign counts the same wherever it stands.
  have hother {o : Operator} (ho : o.sign? = none) :
      (y.stepOperator b o).weight + 1 = y.weight + p.expects.toNat + gain p.expects (.op o) := by
    have hsub : o ≠ .sub := fun h => by rw [h] at ho; cases ho
    rw [weight_stepOperator, if_neg fun h => hsub h.1]
    cases p.expects with
    | false =>
      have hgain : gain false (.op o) = 0 := by simp [gain, begins]
      rw [hgain, Bool.toNat_false]
      omega
    | true =>
      have hgain : gain true (.op o) = -1 := by simp [gain, follows, ho]
      rw [hgain, Bool.toNat_true]
      omega
  cases o with
  | add =>
    rw [weight_stepOperator]
    obtain rfl : p = .operand := hk
    simp [Sign.Place.expects, gain, begins]
  | sub =>
    rw [weight_stepOperator]
    cases p with
    | opening =>
      simp [Sign.Place.expects, gain, follows, Operator.sign?, hp.opening rfl]
    | operator => exact absurd rfl hk
    | operand => simp [Sign.Place.expects, gain, begins, hp.operand rfl]
  | mul => exact hother rfl
  | div => exact hother rfl
  | pow => exact hother rfl

/-- A token of a settled list adds to the weight what it adds to the surplus, and one more if it is
an operand that was expected. -/
theorem weight_step {k : Token} (hp : y.StandsAt p) (hk : p.Admits k)
    (h : y.step signs k = .ok y') :
    y'.StandsAt k.place ∧
      y'.weight + k.expects.toNat = y.weight + p.expects.toNat + gain p.expects k := by
  obtain ⟨n, rfl, rfl⟩ | ⟨o, rfl, rfl⟩ | ⟨rfl, rfl⟩ | ⟨ops, outer, rfl, houter, rfl⟩ := step_cases h
  · refine ⟨standsAt_operand rfl, ?_⟩
    cases p.expects <;> simp [weight, waiting, Postfix.weight, gain, begins, follows, expects]
    all_goals omega
  · exact ⟨standsAt_operator _, weight_op hp hk (signs o)⟩
  · refine ⟨standsAt_opening rfl, ?_⟩
    cases p.expects <;> simp [weight, waiting, gain, begins, follows, expects]
  · refine ⟨standsAt_operand rfl, ?_⟩
    cases p.expects <;>
      simp [weight, waiting, weight_release, houter, gain, begins, follows, expects] <;> omega

/-- Settled tokens add their surplus to the weight, and one more if an operand was expected. -/
theorem weight_foldlM (hp : y.StandsAt p) (hks : Sign.Settled p ks)
    (h : ks.foldlM (step signs) y = .ok y') :
    y'.weight = y.weight + p.expects.toNat + surplus p.expects ks := by
  induction ks generalizing y p with
  | nil =>
    obtain rfl := Except.ok.inj h
    rw [surplus_nil]
    omega
  | cons k ks ih =>
    rw [List.foldlM_cons, bind_eq_ok_iff] at h
    obtain ⟨y₁, hy, h⟩ := h
    obtain ⟨hp₁, hw₁⟩ := weight_step hp hks.1 hy
    have hw := ih hp₁ hks.2 h
    rw [expects_place] at hw
    rw [surplus_cons]
    omega

end Yard

/-- The postfix form of settled tokens leaves one integer on the stack, and the surplus. -/
theorem weight_ofTokensWith {signs : Operator → Bool} {ks : List Token} {p : Postfix}
    (hks : Sign.Settled .opening ks) (h : ofTokensWith signs ks = .ok p) :
    weight p = 1 + surplus true ks := by
  obtain ⟨y, hy, houter, rfl⟩ := ofTokensWith_eq_ok_iff.1 h
  have hw := Yard.weight_foldlM (Yard.standsAt_opening rfl) hks hy
  rw [weight_reverse, weight_release]
  simpa [Yard.weight, Yard.waiting, houter, Yard.start, weight, Sign.Place.expects] using hw

end Postfix

namespace Expression

variable {s : Store} {t : Text} {ks : List Token} {n : Int}

/-- A text with a value has balanced parentheses, admitted characters and bound names. -/
theorem sound_of_value (h : value s t = .ok n) :
    Bracket.Dyck (Bracket.parens t) ∧
      t.find? (fun c => !Text.isBlank c && !isPart c) = none ∧
      (Text.namesIn t).find? (fun x => (s.get? x).isNone) = none := by
  obtain ⟨-, hv⟩ | ⟨hb, ⟨c, -, hv⟩ | ⟨hf, ⟨x, -, hv⟩ | ⟨hx, -⟩⟩⟩ := value_cases s t
  · rw [hv] at h
    cases h
  · rw [hv] at h
    cases h
  · rw [hv] at h
    cases h
  · exact ⟨hb, hf, hx⟩

/-- In a text with a value as many operands are missing as stand side by side. -/
theorem surplus_of_value (h : value s t = .ok n) (hks : Rendering Text.isBlank ks t) :
    surplus true ks = 0 := by
  obtain ⟨hb, -, hx⟩ := sound_of_value h
  rw [namesIn_of_rendering (fun _ h => h) hks] at hx
  obtain ⟨p, hp, hvalue⟩ := exists_postfix hb hks (get?_of_find? hx)
  rw [h] at hvalue
  have hpn : p.value = .ok n := by
    cases hpv : p.value with
    | ok m =>
      rw [hpv] at hvalue
      exact congrArg Except.ok (Except.ok.inj hvalue.symm)
    | error e => rw [hpv] at hvalue; cases hvalue
  have hweight := Postfix.weight_ofTokensWith (Sign.settled_encloseFrom .start _) hp
  have hsurplus : surplus true (Sign.encloseFrom .start
      (withValues (fun x => (s.get? x).getD 0) (mergeSigns (.op .add :: ks)))) =
      surplus true ks := by
    refine (Sign.surplus_encloseFrom .start _).trans ?_
    rw [surplus_withValues, surplus_mergeSigns]
    exact surplus_sign _ .plus ks
  rw [hsurplus, Postfix.weight_of_value hpn] at hweight
  omega

/-! ## Texts outside of the grammar -/

theorem rendering_two_three_mul :
    Rendering Text.isBlank [.int 2, .int 3, .op .mul] "2 3 *".toList := by
  have htwo : Spells (.int 2) ['2'] := spells_ofNat 2
  have hthree : Spells (.int 3) ['3'] := spells_ofNat 3
  exact .cons (w := []) rfl htwo (fun _ _ _ => ⟨' ', rfl, rfl⟩) <|
    .cons (w := [' ']) rfl hthree (by decide) <|
    .cons (w := [' ']) rfl (.op .mul) (by decide) <| .nil rfl

theorem value_two_three_mul : value .empty "2 3 *".toList = .ok 6 := by
  have hb : Bracket.Dyck (Bracket.parens "2 3 *".toList) := .nil
  rw [value_of_rendering hb rendering_two_three_mul]
  rfl

/-- Of the texts with a value those are texts of the grammar in which no two operands stand side by
side.  In the others as many operands are missing as stand side by side. -/
theorem order_of_value (h : value s t = .ok n) :
    ∃ ks, Rendering Text.isBlank ks t ∧ missing ks = adjacent ks ∧
      ((∃ g : Infix.Group, Rendering Text.isBlank g.tokens t) ↔ adjacent ks = 0) := by
  obtain ⟨hb, hf, -⟩ := sound_of_value h
  obtain ⟨ks, hks⟩ := exists_rendering_of_find? hf
  have hsurplus := surplus_of_value h hks
  have hequal : missing ks = adjacent ks := by
    rw [surplus, ← adjacent, ← missing] at hsurplus
    omega
  have hcloses := (dyck_iff_closes hks).1 hb
  refine ⟨ks, hks, hequal, ?_⟩
  constructor
  · rintro ⟨g, hg⟩
    exact (Infix.exists_group_iff.1 ⟨g, hg.unique hks⟩).2.1
  · intro hadjacent
    obtain ⟨g, rfl⟩ := Infix.exists_group_iff.2 ⟨hequal.trans hadjacent, hadjacent, hcloses⟩
    exact ⟨g, hks⟩

theorem order_of_two_three_mul :
    value .empty "2 3 *".toList = .ok 6 ∧
    ∃ ks, Rendering Text.isBlank ks "2 3 *".toList ∧ missing ks = adjacent ks ∧
      ((∃ g : Infix.Group, Rendering Text.isBlank g.tokens "2 3 *".toList) ↔ adjacent ks = 0) :=
  ⟨value_two_three_mul, order_of_value value_two_three_mul⟩

/-- Not every text with a value is a text of the grammar. -/
theorem exists_value_of_no_group :
    value .empty "2 3 *".toList = .ok 6 ∧
      ¬ ∃ g : Infix.Group, Rendering Text.isBlank g.tokens "2 3 *".toList := by
  refine ⟨value_two_three_mul, ?_⟩
  rintro ⟨g, hg⟩
  have hadjacent := (Infix.exists_group_iff.1 ⟨g, hg.unique rendering_two_three_mul⟩).2.1
  exact absurd hadjacent (by decide)

end Expression

end LineCalc
