import LineCalc.Token.Basic
import LineCalc.Tree

/-!
# The grammar by precedence

`Derives 0 ts t` says that the tokens are an expression, and that its tree is `t`.  Powers bind more
strongly than products and quotients, these more strongly than sums and differences, and operators
that bind equally associate to the left.  A minus may stand at the start of an expression or of a
group in parentheses; it subtracts from zero, and binds as a difference does.
-/

namespace LineCalc.Infix

/-- The tokens are an expression with the tree given, and no operator that it has outside of
parentheses binds less strongly than `p`. -/
inductive Derives : Nat → List Token → Tree → Prop
  | int (p : Nat) (n : Int) : Derives p [.int n] (.leaf n)
  | group (p : Nat) {ts : List Token} {t : Tree} (h : Derives 0 ts t) :
      Derives p (.lparen :: ts ++ [.rparen]) t
  /-- Operators of the same precedence may stand to the left of an operator, but not to its
  right. -/
  | node {p : Nat} {o : Operator} {ts us : List Token} {l r : Tree} (hp : p ≤ o.precedence)
      (hl : Derives o.precedence ts l) (hr : Derives (o.precedence + 1) us r) :
      Derives p (ts ++ .op o :: us) (.node o l r)
  /-- A minus at the start has a zero for its left operand. -/
  | minus {p : Nat} {ts : List Token} {t : Tree} (hp : p ≤ Operator.sub.precedence)
      (h : Derives (Operator.sub.precedence + 1) ts t) :
      Derives p (.op .sub :: ts) (.node .sub (.leaf 0) t)

/-- An expression goes on with an operator and an operand: what binds less strongly to the left of
them takes its right operand from there. -/
theorem Derives.append {p : Nat} {o : Operator} {ts us : List Token} {t u : Tree}
    (h : Derives p ts t) (hp : p ≤ o.precedence) (hu : ∀ q, Derives q us u) :
    ∃ t', Derives p (ts ++ .op o :: us) t' := by
  induction h with
  | int p n => exact ⟨_, .node hp (.int _ n) (hu _)⟩
  | group p h => exact ⟨_, .node hp (.group _ h) (hu _)⟩
  | @node p a ts vs l r hp' hl hr ihl ihr =>
    by_cases ha : o.precedence ≤ a.precedence
    · exact ⟨_, .node hp (.node ha hl hr) (hu _)⟩
    · obtain ⟨r', hr'⟩ := ihr (by omega)
      have hnode := Derives.node hp' hl hr'
      rw [← List.cons_append, ← List.append_assoc] at hnode
      exact ⟨_, hnode⟩
  | minus hp' h ih =>
    by_cases ha : o.precedence ≤ Operator.sub.precedence
    · exact ⟨_, .node hp (.minus ha h) (hu _)⟩
    · obtain ⟨t', ht'⟩ := ih (by omega)
      exact ⟨_, .minus hp' ht'⟩

end LineCalc.Infix
