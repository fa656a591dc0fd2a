import LineCalc.Proofs.Surplus
import LineCalc.Sign.Step

/-!
# Settled tokens

In settled tokens a minus is a sign only at the start of a group, and a plus never is one.  Whatever
the tokens are, `Sign.enclose` settles them (`settled_encloseFrom`).
-/

namespace LineCalc

/-- What stands last after the token. -/
def Token.place : Token → Sign.Place
  | int _ => .operand
  | name _ => .operand
  | op _ => .operator
  | lparen => .opening
  | rparen => .operand

theorem Token.expects_place (k : Token) : k.place.expects = k.expects := by
  cases k <;> rfl

namespace Sign

/-- Whether a token may stand after a place in settled tokens. -/
def Place.Admits : Place → Token → Prop
  | p, .op .add => p = .operand
  | p, .op .sub => p ≠ .operator
  | _, _ => True

/-- Tokens after a place in which no sign stands but a minus at the start of a group. -/
def Settled : Place → List Token → Prop
  | _, [] => True
  | p, k :: ks => p.Admits k ∧ Settled k.place ks

theorem Place.admits_iff {p : Place} {k : Token} : p.Admits k ↔
    (k = .op .add → p = .operand) ∧ (k = .op .sub → p ≠ .operator) := by
  cases k with
  | op o => cases o <;> simp [Admits]
  | _ => simp [Admits]

theorem Enclosing.place_of_ending? {st : Enclosing} {k : Token} {d : Nat}
    (h : st.ending? k = some d) : k.place = .operand := by
  obtain ⟨n, rfl, -⟩ | ⟨x, rfl, -⟩ | ⟨rfl, -⟩ := Enclosing.eq_of_ending? h <;> rfl

theorem settled_rparens {p : Place} (n : Nat) : Settled p (List.replicate n .rparen) := by
  induction n generalizing p with
  | zero => trivial
  | succ n ih => exact ⟨trivial, ih⟩

theorem settled_rparens_append {ts : List Token} (h : Settled .operand ts) (n : Nat) :
    Settled .operand (List.replicate n .rparen ++ ts) := by
  induction n with
  | zero => exact h
  | succ n ih => exact ⟨trivial, ih⟩

/-- Whatever the tokens are, they are settled when their signs have been enclosed. -/
theorem settled_encloseFrom (st : Enclosing) (ts : List Token) :
    Settled st.place (encloseFrom st ts) := by
  induction ts generalizing st with
  | nil => exact settled_rparens _
  | cons k ts ih =>
    rw [encloseFrom]
    have hstep := st.step_next k
    have htail := ih (st.next k)
    generalize st.emit k = us, st.next k = st' at hstep htail ⊢
    cases hstep with
    | plus => exact htail
    | minus =>
      have hopening : Place.opening ≠ .operator := by decide
      exact ⟨trivial, hopening, htail⟩
    | operator hadd hsub =>
      have hadmits : st.place.Admits (.op _) :=
        Place.admits_iff.2 ⟨fun h => hadd (Token.op.inj h), fun h => hsub (Token.op.inj h)⟩
      exact ⟨hadmits, htail⟩
    | lparen => exact ⟨trivial, htail⟩
    | @operand _ d hd =>
      have hplace := Enclosing.place_of_ending? hd
      refine ⟨Place.admits_iff.2 ⟨?_, ?_⟩, hplace ▸ settled_rparens_append htail _⟩
      · rintro rfl
        cases hplace
      · rintro rfl
        cases hplace

end Sign

end LineCalc
