import LineCalc.Sign.Basic
import LineCalc.Token.Basic
import LineCalc.Tree

/-!
# Infix expressions

The grammar of the calculator.  A group is a chain of operands with operators between them; any
number of signs may stand before each operand, and an operand is an integer, a name, or a group in
parentheses.

`Group.tokens` is how a group is written, and `Group.tree` is what it means.
-/

namespace LineCalc

/-- The operator that is written like the sign. -/
def Sign.operator : Sign → Operator
  | plus => .add
  | minus => .sub

namespace Infix

mutual

/-- What operators join. -/
inductive Operand where
  | int (n : Int)
  | name (x : Name)
  | group (g : Group)

/-- A chain: a first operand with its signs, and what is joined to it. -/
inductive Group where
  | mk (signs : List Sign) (first : Operand) (rest : Rest)

/-- Further operands, each with the operator and the signs before it. -/
inductive Rest where
  | nil
  | cons (o : Operator) (signs : List Sign) (operand : Operand) (rest : Rest)

end

/-- The tokens of a list of signs. -/
def signTokens (signs : List Sign) : List Token := signs.map fun s => .op s.operator

/-- The net sign of a list of signs. -/
def netSign (signs : List Sign) : Sign := signs.foldr (· * ·) .plus

mutual

/-- How an operand is written. -/
def Operand.tokens : Operand → List Token
  | .int n => [.int n]
  | .name x => [.name x]
  | .group g => .lparen :: g.tokens ++ [.rparen]

/-- How a group is written. -/
def Group.tokens : Group → List Token
  | .mk signs first rest => signTokens signs ++ first.tokens ++ rest.tokens

/-- How the rest of a group is written. -/
def Rest.tokens : Rest → List Token
  | .nil => []
  | .cons o signs operand rest => .op o :: signTokens signs ++ operand.tokens ++ rest.tokens

end

theorem tokens_group_append (g : Group) (ts : List Token) :
    (Operand.group g).tokens ++ ts = .lparen :: (g.tokens ++ .rparen :: ts) := by
  simp [Operand.tokens]

theorem tokens_mk_append (signs : List Sign) (first : Operand) (rest : Rest) (ts : List Token) :
    (Group.mk signs first rest).tokens ++ ts =
      signTokens signs ++ (first.tokens ++ (rest.tokens ++ ts)) := by
  simp [Group.tokens]

theorem tokens_cons_append (o : Operator) (signs : List Sign) (a : Operand) (rest : Rest)
    (ts : List Token) :
    (Rest.cons o signs a rest).tokens ++ ts =
      .op o :: (signTokens signs ++ (a.tokens ++ (rest.tokens ++ ts))) := by
  simp [Rest.tokens]

/-! ## Meaning -/

/-- An operand joined by `o`, with the net sign of the signs before it.  The sign of an operand that
is added or subtracted goes into the operator; elsewhere it binds more strongly than that. -/
def link (o : Operator) (sign : Sign) (t : Tree) : Operator × Tree :=
  match o, sign with
  | .add, s => (s.operator, t)
  | .sub, s => ((Sign.minus * s).operator, t)
  | o, .plus => (o, t)
  | o, .minus => (o, t.neg)

mutual

/-- The tree of an operand, given the values of the names. -/
def Operand.tree (value : Name → Int) : Operand → Tree
  | .int n => .leaf n
  | .name x => .leaf (value x)
  | .group g => g.tree value

/-- The tree of a group.  A minus before the first operand subtracts from zero the powers, products
and quotients that begin with that operand. -/
def Group.tree (value : Name → Int) : Group → Tree
  | .mk signs first rest =>
    match netSign signs with
    | .plus => .ofChain (first.tree value) (rest.chain value)
    | .minus => .ofChain (.leaf 0) ((.sub, first.tree value) :: rest.chain value)

/-- The further operands of a group and the operators that join them. -/
def Rest.chain (value : Name → Int) : Rest → List (Operator × Tree)
  | .nil => []
  | .cons o signs operand rest =>
    link o (netSign signs) (operand.tree value) :: rest.chain value

end

/-! ## Signs in parentheses -/

/-- Tokens with a minus before them in parentheses, as many times as there are minus signs. -/
def encloseTokens (signs : List Sign) (ts : List Token) : List Token :=
  let n := signs.count .minus
  (List.replicate n [.lparen, .op .sub]).flatten ++ ts ++ List.replicate n .rparen

mutual

/-- How an operand is written without signs after operators. -/
def Operand.enclosed : Operand → List Token
  | .int n => [.int n]
  | .name x => [.name x]
  | .group g => .lparen :: g.enclosed ++ [.rparen]

/-- How a group is written without signs after operators.  The first minus of its signs remains, the
others are put in parentheses with the operand. -/
def Group.enclosed : Group → List Token
  | .mk signs first rest =>
    (if .minus ∈ signs then
      .op .sub :: encloseTokens (signs.erase .minus) first.enclosed
    else first.enclosed) ++ rest.enclosed

/-- How the rest of a group is written without signs after operators. -/
def Rest.enclosed : Rest → List Token
  | .nil => []
  | .cons o signs operand rest => .op o :: encloseTokens signs operand.enclosed ++ rest.enclosed

end

end Infix

end LineCalc
