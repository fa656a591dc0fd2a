import LineCalc.Proofs.Settled
import Mathlib.Data.List.Chain

/-!
# Tokens with enclosed signs

Which tokens `enclose` leaves as they are can be told from neighbours (`Normal`): no sign stands
after an operator, and no plus at the start of a group.  These are the settled tokens
(`normal_iff_settled`), and as enclosing settles all tokens, they are also the only ones that it
gives (`enclose_normal`).
-/

namespace LineCalc.Sign

variable {p : Place} {k : Token} {ts us : List Token} {st : Enclosing}

/-- No sign stands directly after an operator, and no plus at the start or directly after an opening
parenthesis. -/
structure Normal (us : List Token) : Prop where
  after_operator : ∀ (o : Operator) (s : Sign), ¬ [.op o, .op s.operator] <:+: us
  at_start : us.head? ≠ some (.op .add)
  after_lparen : ¬ [.lparen, .op .add] <:+: us

/-! ## Neighbours -/

/-- Tokens are settled if each of them may stand where it does. -/
theorem settled_iff : Settled p us ↔
    (∀ k ∈ us.head?, p.Admits k) ∧ us.IsChain fun k l => k.place.Admits l := by
  induction us generalizing p with
  | nil => simp [Settled]
  | cons k us ih => simp [Settled, ih, List.isChain_cons]

theorem Normal.place_admits (h : Normal us) {l : Token} (hkl : [k, l] <:+: us) :
    k.place.Admits l := by
  rw [Place.admits_iff]
  constructor
  · rintro rfl
    cases k with
    | op o => exact absurd hkl (h.after_operator o .plus)
    | lparen => exact absurd hkl h.after_lparen
    | int n => rfl
    | name x => rfl
    | rparen => rfl
  · rintro rfl hplace
    cases k with
    | op o => exact h.after_operator o .minus hkl
    | lparen => cases hplace
    | int n => cases hplace
    | name x => cases hplace
    | rparen => cases hplace

theorem normal_iff_settled : Normal us ↔ Settled .opening us := by
  rw [settled_iff]
  constructor
  · intro h
    refine ⟨fun k hk => Place.admits_iff.2 ⟨?_, nofun⟩, ?_⟩
    · rintro rfl
      exact absurd hk h.at_start
    · rw [List.isChain_iff_forall_rel_of_append_cons_cons]
      rintro k l x y rfl
      exact h.place_admits ⟨x, y, by simp⟩
  · rintro ⟨hhead, hchain⟩
    have hadmits {k l : Token} (hkl : [k, l] <:+: us) : k.place.Admits l :=
      List.isChain_pair.1 <| List.IsChain.infix hchain hkl
    refine ⟨fun o s hos => ?_, fun hstart => ?_, fun hlparen => ?_⟩
    · cases s with
      | plus => cases hadmits hos
      | minus => exact hadmits hos rfl
    · cases hhead _ hstart
    · cases hadmits hlparen

/-! ## Tokens that stay as they are -/

/-- Settled tokens are passed on, as long as no parentheses are owed. -/
theorem encloseFrom_of_settled (h : Settled st.place us) (howed : st.owed = []) :
    encloseFrom st us = us := by
  induction us generalizing st with
  | nil => simp [encloseFrom, howed]
  | cons k us ih =>
    obtain ⟨hk, hus⟩ := h
    rw [encloseFrom]
    have hstep := st.step_next k
    generalize st.emit k = vs, st.next k = st' at hstep ⊢
    cases hstep with
    | plus hp => exact absurd hk hp
    | minus hp => exact absurd hp hk
    | operator => exact congrArg (_ :: ·) (ih hus howed)
    | lparen => exact congrArg (_ :: ·) (ih hus howed)
    | @operand _ d hd =>
      rw [Enclosing.place_of_ending? hd] at hus
      have hclosing : st.closing d = [] := by
        rw [Enclosing.closing, howed]
        rfl
      have howed' : (st.afterOperand d).owed = [] := by
        rw [Enclosing.afterOperand, howed, List.drop_nil]
      rw [hclosing]
      exact congrArg (k :: ·) (ih hus howed')

theorem settled_enclose (ts : List Token) : Settled .opening (enclose ts) :=
  settled_encloseFrom .start ts

theorem enclose_eq_self_iff : enclose us = us ↔ Settled .opening us :=
  ⟨fun h => h ▸ settled_enclose us, fun h => encloseFrom_of_settled h rfl⟩

/-- Whatever the tokens are, they are in normal form when their signs have been enclosed.  The
normal forms are the tokens that enclosing leaves as they are and the only ones that it gives, so
enclosing once more changes nothing. -/
theorem enclose_normal :
    (∀ ts, Normal (enclose ts)) ∧ (∀ us, enclose us = us ↔ Normal us) ∧
    (∀ us, (∃ ts, enclose ts = us) ↔ Normal us) ∧
    ∀ ts, enclose (enclose ts) = enclose ts := by
  have hnormal (ts : List Token) : Normal (enclose ts) := normal_iff_settled.2 (settled_enclose ts)
  have hfixed (us : List Token) : enclose us = us ↔ Normal us :=
    enclose_eq_self_iff.trans normal_iff_settled.symm
  refine ⟨hnormal, hfixed, fun us => ⟨?_, fun h => ⟨us, (hfixed us).2 h⟩⟩, fun ts => ?_⟩
  · rintro ⟨ts, rfl⟩
    exact hnormal ts
  · exact (hfixed _).2 (hnormal ts)

end LineCalc.Sign
