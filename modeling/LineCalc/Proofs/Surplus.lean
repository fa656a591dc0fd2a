import LineCalc.Proofs.Grammar

/-!
# The surplus of operands

The surplus of tokens is the number of operands side by side less the number of missing operands.
No stage before the conversion changes it: net signs, values and enclosed signs bring no operand to
a place where it would count, and take none away.
-/

namespace LineCalc

namespace Token

/-- The operands side by side less the missing ones, given whether an operand is expected first. -/
def surplus (e : Bool) (ks : List Token) : Int := adjacentFrom e ks - missingFrom e ks

/-- What a token adds to the surplus. -/
def gain (e : Bool) (k : Token) : Int := (!e && k.begins).toNat - (e && k.follows).toNat

theorem surplus_nil (e : Bool) : surplus e [] = -(e.toNat : Int) := by
  simp [surplus, adjacentFrom, missingFrom]

theorem surplus_cons (e : Bool) (k : Token) (ks : List Token) :
    surplus e (k :: ks) = gain e k + surplus k.expects ks := by
  simp only [surplus, gain, adjacentFrom, missingFrom]
  omega

/-! ## Net signs and values -/

theorem surplus_sign (e : Bool) (s : Sign) (ks : List Token) :
    surplus e (op s.operator :: ks) = surplus true ks := by
  rw [surplus_cons]
  cases e <;> cases s <;> simp [gain, begins, follows, expects, Sign.operator, Operator.sign?]

theorem surplus_absorb (e : Bool) (s : Sign) (ks : List Token) :
    surplus e (absorb s ks) = surplus true ks := by
  cases ks with
  | nil => exact surplus_sign e s []
  | cons k ks =>
    cases hk : k.sign? with
    | none => rw [absorb_cons s hk, surplus_sign]
    | some r =>
      obtain rfl := sign?_eq_some_iff.1 hk
      rw [absorb_sign, surplus_sign, surplus_sign]

theorem surplus_mergeSigns (e : Bool) (ks : List Token) :
    surplus e (mergeSigns ks) = surplus e ks := by
  induction ks generalizing e with
  | nil => rfl
  | cons k ks ih =>
    cases hk : k.sign? with
    | none => rw [mergeSigns_cons hk, surplus_cons, surplus_cons, ih]
    | some s =>
      obtain rfl := sign?_eq_some_iff.1 hk
      rw [mergeSigns_sign, surplus_absorb, ih, surplus_sign]

/-- The tokens of a value count as one operand. -/
theorem surplus_valueTokens (e : Bool) (v : Int) (x : Name) (ks : List Token) :
    surplus e (Store.valueTokens v ++ ks) = surplus e (name x :: ks) := by
  unfold Store.valueTokens
  split <;> cases e <;>
    simp [surplus_cons, gain, begins, follows, expects, Operator.sign?]

theorem surplus_withValues (value : Name → Int) (e : Bool) (ks : List Token) :
    surplus e (withValues value ks) = surplus e ks := by
  induction ks generalizing e with
  | nil => rfl
  | cons k ks ih =>
    rw [withValues_cons]
    cases hk : k.name? with
    | none =>
      rw [withValue_of_ne hk, List.singleton_append, surplus_cons, surplus_cons, ih]
    | some x =>
      obtain rfl := eq_name_of_name? hk
      rw [withValue, surplus_valueTokens e (value x) x, surplus_cons, surplus_cons, ih]

/-! ## Enclosed signs -/

theorem surplus_rparens (n : Nat) (ks : List Token) :
    surplus false (List.replicate n rparen ++ ks) = surplus false ks := by
  induction n with
  | zero => rfl
  | succ n ih =>
    rw [List.replicate_succ, List.cons_append, surplus_cons]
    simpa [gain, begins, expects] using ih

end Token

namespace Sign

open Token

/-- Whether an operand has to stand after the place. -/
def Place.expects : Place → Bool
  | .opening => true
  | .operator => true
  | .operand => false

theorem surplus_closing (k : Token) (hk : k.expects = false) (e : Bool) (n : Nat)
    {us ts : List Token} (h : surplus false us = surplus false ts) :
    surplus e (k :: List.replicate n .rparen ++ us) = surplus e (k :: ts) := by
  rw [List.cons_append, surplus_cons, surplus_cons, hk, surplus_rparens, h]

/-- Enclosing the signs leaves the surplus as it is. -/
theorem surplus_encloseFrom (st : Enclosing) (ts : List Token) :
    surplus st.place.expects (encloseFrom st ts) = surplus st.place.expects ts := by
  induction ts generalizing st with
  | nil =>
    rw [encloseFrom]
    cases hn : st.owed.length with
    | zero => rfl
    | succ n =>
      have htail := surplus_rparens n []
      rw [List.append_nil] at htail
      rw [List.replicate_succ, surplus_cons, surplus_nil]
      cases st.place.expects <;> simp [gain, begins, follows, expects, htail, surplus_nil]
  | cons k ts ih =>
    rw [encloseFrom]
    have hstep := st.step_next k
    have htail := ih (st.next k)
    generalize st.emit k = us, st.next k = st' at hstep htail ⊢
    cases hstep with
    | plus hp =>
      have he : st.place.expects = true := by
        cases hplace : st.place with
        | operand => exact absurd hplace hp
        | opening => rfl
        | operator => rfl
      have hsign := surplus_sign st.place.expects .plus ts
      rw [he] at htail hsign ⊢
      exact htail.trans hsign.symm
    | minus hp =>
      have hsign := surplus_sign true .minus
      have hlparen : gain true .lparen = 0 := rfl
      rw [hp]
      change surplus true (.lparen :: .op .sub :: encloseFrom _ ts) = _
      rw [surplus_cons, hlparen, Int.zero_add]
      exact (hsign _).trans (htail.trans (hsign ts).symm)
    | operator =>
      exact (surplus_cons _ _ _).trans ((congrArg _ htail).trans (surplus_cons _ _ _).symm)
    | lparen =>
      exact (surplus_cons _ _ _).trans ((congrArg _ htail).trans (surplus_cons _ _ _).symm)
    | @operand _ d hd =>
      have hk : k.expects = false := by
        obtain ⟨n, rfl, -⟩ | ⟨x, rfl, -⟩ | ⟨rfl, -⟩ := Enclosing.eq_of_ending? hd <;> rfl
      exact surplus_closing k hk _ _ htail

end Sign

end LineCalc
