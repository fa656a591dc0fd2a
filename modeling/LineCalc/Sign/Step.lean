import LineCalc.Sign.Enclose

/-!
# One token at a time

What the reader does with a token is one of five things (`Enclosing.step_next`): it drops a plus, it
puts a parenthesis before a minus, it passes an operator or an opening parenthesis on, or it passes
on the last token of an operand and closes what the operand completes.

`written` is what stands in the output when some tokens have been read, without what is closed at
the end only.
-/

namespace LineCalc.Sign

namespace Enclosing

/-- The depth at which an operand ends that the token ends. -/
def ending? (st : Enclosing) : Token → Option Nat
  | .int _ => some st.depth
  | .name _ => some st.depth
  | .rparen => some (st.depth - 1)
  | _ => none

/-- What a reader does with a token: what it writes, and its state after that. -/
inductive Step (st : Enclosing) : Token → List Token → Enclosing → Prop
  | plus (h : st.place ≠ .operand) : Step st (.op .add) [] st
  | minus (h : st.place = .operator) :
    Step st (.op .sub) [.lparen, .op .sub] ⟨.operator, st.depth + 1, (st.depth + 1) :: st.owed⟩
  | operator {o : Operator} (hadd : o = .add → st.place = .operand)
    (hsub : o = .sub → st.place ≠ .operator) :
    Step st (.op o) [.op o] { st with place := .operator }
  | lparen : Step st .lparen [.lparen] { st with place := .opening, depth := st.depth + 1 }
  | operand {k : Token} {d : Nat} (h : st.ending? k = some d) :
    Step st k (k :: st.closing d) (st.afterOperand d)

theorem eq_of_ending? {st : Enclosing} {k : Token} {d : Nat} (h : st.ending? k = some d) :
    (∃ n, k = .int n ∧ d = st.depth) ∨ (∃ x, k = .name x ∧ d = st.depth) ∨
      k = .rparen ∧ d = st.depth - 1 := by
  cases k with
  | int n => exact Or.inl ⟨n, rfl, (Option.some.inj h).symm⟩
  | name x => exact Or.inr (Or.inl ⟨x, rfl, (Option.some.inj h).symm⟩)
  | rparen => exact Or.inr (Or.inr ⟨rfl, (Option.some.inj h).symm⟩)
  | op o => cases h
  | lparen => cases h

theorem step_next (st : Enclosing) (k : Token) : st.Step k (st.emit k) (st.next k) := by
  cases k with
  | int n => exact .operand rfl
  | name x => exact .operand rfl
  | lparen => exact .lparen
  | rparen => exact .operand rfl
  | op o =>
    cases o with
    | add =>
      rw [emit, next]
      split
      · next hp => exact .operator (fun _ => hp) nofun
      · next hp => exact .plus hp
    | sub =>
      rw [emit, next]
      split
      · next hp => exact .minus hp
      · next hp => exact .operator nofun fun _ => hp
    | mul => exact .operator nofun nofun
    | div => exact .operator nofun nofun
    | pow => exact .operator nofun nofun

end Enclosing

/-- What has been written when the tokens have been read. -/
def written (st : Enclosing) : List Token → List Token
  | [] => []
  | k :: ts => st.emit k ++ written (st.next k) ts

theorem encloseFrom_append (st : Enclosing) (ts us : List Token) :
    encloseFrom st (ts ++ us) = written st ts ++ encloseFrom (ts.foldl Enclosing.next st) us := by
  induction ts generalizing st with
  | nil => rfl
  | cons k ts ih =>
    rw [List.cons_append, encloseFrom, ih, written, List.append_assoc, List.foldl_cons]

end LineCalc.Sign
