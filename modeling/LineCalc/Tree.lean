import LineCalc.Operator.Apply
import LineCalc.Postfix.Basic

/-!
# Expression trees

The meaning of an expression without regard to how it is written: `Tree.value` computes it from the
operands up, `Tree.postorder` lists its terms in postfix form, and `Tree.ofChain` gives the tree of
a chain of operands by the precedence of the operators between them.
-/

namespace LineCalc

/-- An integer, or an operator with its two operands. -/
inductive Tree where
  | leaf (n : Int)
  | node (o : Operator) (l r : Tree)
deriving DecidableEq, Repr

namespace Tree

/-- The value of a tree; of several operators without a result, the first in postorder counts. -/
def value : Tree → Except ArithmeticError Int
  | leaf n => .ok n
  | node o l r => do
    let a ← l.value
    let b ← r.value
    o.apply a b

/-- The terms of a tree, each operator after its operands. -/
def postorder : Tree → Postfix
  | leaf n => [.int n]
  | node o l r => l.postorder ++ r.postorder ++ [.op o]

/-- Negation, as a subtraction from zero. -/
def neg (t : Tree) : Tree := node .sub (leaf 0) t

/-! ## Chains -/

/-- A first operand, and what the operators of precedence `p` in a chain join to the operand on
their left.  The other operators remain. -/
def joinLevel (p : Nat) (t : Tree) : List (Operator × Tree) → Tree × List (Operator × Tree)
  | [] => (t, [])
  | (o, u) :: r =>
    if o.precedence = p then joinLevel p (node o t u) r
    else
      let (u, r) := joinLevel p u r
      (t, (o, u) :: r)

/-- The tree of a chain of operands: the powers are joined first, then the products and quotients,
then the sums and differences, each from left to right. -/
def ofChain (t : Tree) (r : List (Operator × Tree)) : Tree :=
  let (t, r) := joinLevel 3 t r
  let (t, r) := joinLevel 2 t r
  (joinLevel 1 t r).1

end Tree

end LineCalc
