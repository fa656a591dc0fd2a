import LineCalc.Token.Basic

/-!
# Signs before operands

`enclose` rewrites the signs that stand where an operand is expected, so that afterwards a minus is
a sign only at the start of a group.  A plus in such a place is dropped.  A minus after an operator
is put in parentheses together with its operand: `2 * - 3` becomes `2 * ( - 3 )`.  The operand is
the next integer or name, or the next group.

The tokens are read from left to right.  The state of the reader holds what stands last in the
output, how many parentheses are open, and the depths at which parentheses are owed to operands
that have not ended yet.
-/

namespace LineCalc.Sign

/-- What stands last in the output. -/
inductive Place where
  /-- Nothing, or an opening parenthesis. -/
  | opening
  /-- An operator. -/
  | operator
  /-- An operand, or a closing parenthesis. -/
  | operand
deriving DecidableEq, Repr

/-- The state of the reader between two tokens. -/
structure Enclosing where
  /-- What stands last in the output. -/
  place : Place
  /-- The number of open parentheses; a closing one that closes nothing leaves it at zero. -/
  depth : Nat
  /-- The depths inside the parentheses that have been put before a minus, the innermost first. -/
  owed : List Nat
deriving DecidableEq, Repr

namespace Enclosing

/-- Before the first token. -/
def start : Enclosing := ⟨.opening, 0, []⟩

/-- How many owed parentheses an operand completes that ends at depth `d`.  Each of them ends an
operand itself, one level further out. -/
def due (d : Nat) : List Nat → Nat
  | [] => 0
  | o :: os => if o = d then due (d - 1) os + 1 else 0

/-- The parentheses that follow an operand that ends at depth `d`. -/
def closing (st : Enclosing) (d : Nat) : List Token :=
  List.replicate (due d st.owed) .rparen

/-- The state after an operand that ends at depth `d`, and after the parentheses that follow it. -/
def afterOperand (st : Enclosing) (d : Nat) : Enclosing :=
  ⟨.operand, d - due d st.owed, st.owed.drop (due d st.owed)⟩

/-- What is written for a token. -/
def emit (st : Enclosing) : Token → List Token
  | .op .add => if st.place = .operand then [.op .add] else []
  | .op .sub => if st.place = .operator then [.lparen, .op .sub] else [.op .sub]
  | .op o => [.op o]
  | .lparen => [.lparen]
  | .rparen => .rparen :: st.closing (st.depth - 1)
  | .int n => .int n :: st.closing st.depth
  | .name x => .name x :: st.closing st.depth

/-- The state after a token. -/
def next (st : Enclosing) : Token → Enclosing
  | .op .add => if st.place = .operand then { st with place := .operator } else st
  | .op .sub =>
    if st.place = .operator then ⟨.operator, st.depth + 1, (st.depth + 1) :: st.owed⟩
    else { st with place := .operator }
  | .op _ => { st with place := .operator }
  | .lparen => { st with place := .opening, depth := st.depth + 1 }
  | .rparen => st.afterOperand (st.depth - 1)
  | .int _ => st.afterOperand st.depth
  | .name _ => st.afterOperand st.depth

end Enclosing

/-- The rewriting of the tokens that are read from a state on.  What is still owed at the end is
closed there. -/
def encloseFrom (st : Enclosing) : List Token → List Token
  | [] => List.replicate st.owed.length .rparen
  | t :: ts => st.emit t ++ encloseFrom (st.next t) ts

/-- The tokens with every sign of an operand dropped, or put in parentheses, unless it is a minus at
the start of a group. -/
def enclose (ts : List Token) : List Token := encloseFrom .start ts

end LineCalc.Sign
