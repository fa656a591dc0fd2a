import LineCalc.Session.History
import LineCalc.Sign.Literal

/-!
# Partial operations

Some steps of the calculator are only defined for a part of their arguments: to take the binding at
a place, to cut a text after a number of bytes, to lower a depth by one, and to divide.  Here the
steps are carried out with operations that stop when they leave their range, and so are the
functions that depend on them.  Nothing is known about their arguments: the bindings are a bare
`Table`, whose index may point anywhere, and the texts, tokens and terms need not be well formed.
The other functions have no partial steps, and are used as they are.
-/

namespace LineCalc

/-- How an operation leaves its range. -/
inductive OutOfRange where
  /-- There is no binding at the place. -/
  | place (i : Nat)
  /-- The text has no boundary of characters after that number of bytes. -/
  | boundary (n : Nat)
  /-- The depth is lowered below zero. -/
  | depth
  /-- The divisor is zero. -/
  | divisor
deriving DecidableEq, Repr

/-- The result of a computation that stops when an operation leaves its range. -/
abbrev Checked := Except OutOfRange

namespace Checked

/-- A result, or fault, that was found without partial operations. -/
def total {ε α : Type} (x : Except ε α) : ExceptT ε Checked α := .mk (.ok x)

/-! ## The operations -/

/-- The binding at a place. -/
def entry (es : List (Name × Int)) (i : Nat) : Checked (Name × Int) :=
  match es[i]? with
  | some e => return e
  | none => throw (.place i)

/-- The bindings with another value at a place. -/
def setValue (es : List (Name × Int)) (i : Nat) (v : Int) : Checked (List (Name × Int)) := do
  let e ← entry es i
  return es.set i (e.1, v)

/-- The first `n` bytes of the UTF-8 encoding of a text, and the rest. -/
def cut (n : Nat) : Text → Checked (Text × Text)
  | [] => if n = 0 then return ([], []) else throw (.boundary n)
  | c :: t =>
    if n = 0 then return ([], c :: t)
    else if n < c.utf8Size then throw (.boundary n)
    else do
      let (u, v) ← cut (n - c.utf8Size) t
      return (c :: u, v)

/-- The depth one level further out. -/
def lower : Nat → Checked Nat
  | 0 => throw .depth
  | d + 1 => return d

/-- The quotient, truncated toward zero. -/
def quotient (a b : Int) : Checked Int :=
  if b = 0 then throw .divisor else return a.tdiv b

/-! ## Variables -/

/-- The value of a name: what the binding at its place has. -/
def get? (t : Table) (x : Name) : Checked (Option Int) :=
  match t.index x with
  | some i => do
    let e ← entry t.entries i
    return some e.2
  | none => return none

/-- The table after an assignment. -/
def assign (t : Table) (x : Name) (v : Int) : Checked Table :=
  match t.index x with
  | some i => do
    let es ← setValue t.entries i v
    return { t with entries := es }
  | none => return t.assign x v

/-- The value of a name that is expected to be bound. -/
def resolve (t : Table) (x : Name) : ExceptT UnknownVariable Checked Int := do
  match ← get? t x with
  | some v => return v
  | none => throw ⟨x⟩

/-- The tokens with the value of each name in place of the name. -/
def substitute (t : Table) : List Token → ExceptT UnknownVariable Checked (List Token)
  | [] => return []
  | .name x :: ks => do
    let v ← resolve t x
    let us ← substitute t ks
    return Store.valueTokens v ++ us
  | k :: ks => do
    let us ← substitute t ks
    return k :: us

/-! ## Lines -/

/-- The integer that a signed literal denotes.  Its canonical form is cut after the first byte,
which is taken for the sign. -/
def literal? (t : Text) : Checked (Option Int) := do
  let (mark, ds) ← cut 1 (Sign.collapse t)
  let sign := if mark = ['-'] then Sign.minus else .plus
  return if Text.isNumeral ds then some (sign.apply (Numeral.value ds)) else none

/-- The source that a text denotes. -/
def source? (t : Text) : Checked (Option Source) := do
  let (s, r) := Source.splitSign t
  if Text.isNumeral r then
    let v ← literal? t
    return v.map .literal
  else return if Text.isName r then some (.copy s r) else none

/-- The assignment that a text denotes. -/
def assignment? (t : Text) : Checked (Option Statement) :=
  match Statement.splitTarget? t with
  | some (x, r) => do
    let source ← source? r
    return source.map (.assign x)
  | none => return none

/-- The statement of a line. -/
def classify (line : Text) : Checked Statement := do
  let t := line.trim
  if Text.isName t then return .query t
  match ← assignment? t with
  | some st => return st
  | none =>
    return if '=' ∈ t then .badAssignment
      else if t.isEmpty then .empty
      else if t.head? = some '/' then .command (.ofLine t)
      else .expression t

/-! ## Expressions -/

/-- Whether a text closes the parentheses that are open before it, and all that it opens. -/
def closes : Nat → Text → Checked Bool
  | d, [] => return d == 0
  | d, c :: t =>
    if c = '(' then closes (d + 1) t
    else if c = ')' then
      if d = 0 then return false
      else do
        let d ← lower d
        closes d t
    else closes d t

/-- Whether the parentheses of a text are balanced. -/
def balanced (t : Text) : Checked Bool := closes 0 t

/-- The owed parentheses that an operand completes that ends at depth `d`; then the depth after
them, and what is still owed. -/
def settle (d : Nat) : List Nat → Checked (List Token × Nat × List Nat)
  | [] => return ([], d, [])
  | o :: os =>
    if o = d then do
      let d ← lower d
      let (ks, d, os) ← settle d os
      return (.rparen :: ks, d, os)
    else return ([], d, o :: os)

/-- What is written for the last token of an operand that ends at depth `d`, and the state after
it. -/
def operand (st : Sign.Enclosing) (k : Token) (d : Nat) : Checked (List Token × Sign.Enclosing) := do
  let (ks, d, os) ← settle d st.owed
  return (k :: ks, ⟨.operand, d, os⟩)

/-- What is written for a token, and the state after it.  A closing parenthesis that closes nothing
leaves the depth at zero. -/
def encloseStep (st : Sign.Enclosing) : Token → Checked (List Token × Sign.Enclosing)
  | .rparen => operand st .rparen (st.depth - 1)
  | .int n => operand st (.int n) st.depth
  | .name x => operand st (.name x) st.depth
  | k => return (st.emit k, st.next k)

/-- The rewriting of the signs of operands from a state on. -/
def encloseFrom (st : Sign.Enclosing) : List Token → Checked (List Token)
  | [] => return List.replicate st.owed.length .rparen
  | k :: ks => do
    let (us, st) ← encloseStep st k
    let vs ← encloseFrom st ks
    return us ++ vs

/-- The tokens with every sign of an operand dropped, or put in parentheses, unless it is a minus at
the start of a group. -/
def enclose (ks : List Token) : Checked (List Token) := encloseFrom .start ks

/-- The result of an operator. -/
def apply : Operator → Int → Int → ExceptT ArithmeticError Checked Int
  | .div, a, b => if b = 0 then throw .divisionByZero else quotient a b
  | o, a, b => total (o.apply a b)

/-- The stack of values after a term. -/
def step (st : List Int) : Term → ExceptT EvalError Checked (List Int)
  | .int n => return n :: st
  | .op o =>
    match st with
    | b :: a :: st => do
      let v ← (apply o a b).adapt .arithmetic
      return v :: st
    | _ => throw (.stackUnderflow o)

/-- The value of a postfix expression. -/
def evaluate (p : Postfix) : ExceptT EvalError Checked Int := do
  let st ← p.foldlM step []
  total (Postfix.result st)

/-- The value of infix tokens without names. -/
def tokensValue (ks : List Token) : ExceptT Expression.Fault Checked Int := do
  let us ← enclose ks
  let p ← (total (Postfix.ofTokens us)).adapt .convert
  (evaluate p).adapt .eval

/-- The value of an expression, with the values of a table for its names. -/
def value (t : Table) (u : Text) : ExceptT Expression.Fault Checked Int := do
  let u := Sign.collapse u
  if ← balanced u then
    let ks ← (total (Token.scan u)).adapt .scan
    let us ← (substitute t ks).adapt .unknownVariable
    tokensValue us
  else throw .unbalanced

/-! ## Sessions -/

/-- The bindings in braces. -/
def render (t : Table) : Text :=
  '\x7b' :: [',', ' '].intercalate (t.entries.map Store.renderEntry) ++ ['\x7d']

/-- The outcome of a command. -/
def runCommand (t : Table) : Command → Except Fault Outcome
  | .exit => .ok (.exit Session.farewell)
  | .help => .ok (.print Session.helpText)
  | .listing => .ok (.print (render t))
  | .unknown u => .error (.unknownCommand u)

/-- The integer that the right side of an assignment denotes. -/
def sourceValue (t : Table) : Source → ExceptT UnknownVariable Checked Int
  | .literal v => return v
  | .copy sign x => sign.apply <$> resolve t x

/-- The outcome of a statement, and the table after it. -/
def run (t : Table) : Statement → Checked (Except Fault Outcome × Table)
  | .empty => return (.ok .silent, t)
  | .query x => do
    match ← get? t x with
    | some v => return (.ok (.print (Numeral.ofInt v)), t)
    | none => return (.error (.unboundQuery x), t)
  | .assign x source => do
    match ← (sourceValue t source).run with
    | .ok v =>
      let t ← assign t x v
      return (.ok .silent, t)
    | .error e => return (.error (.expression (.unknownVariable e)), t)
  | .badAssignment => return (.error .badAssignment, t)
  | .command c => return (runCommand t c, t)
  | .expression u => do
    match ← (value t u).run with
    | .ok v => return (.ok (.print (Numeral.ofInt v)), t)
    | .error e => return (.error (.expression e), t)

/-- The outcome of a line, and the table after it. -/
def execute (t : Table) (line : Text) : Checked (Except Fault Outcome × Table) := do
  let st ← classify line
  run t st

/-- The outcomes of the lines, and the table after them. -/
def history (t : Table) : List Text → Checked (List (Except Fault Outcome) × Table)
  | [] => return ([], t)
  | l :: ls => do
    let (o, t) ← execute t l
    let (os, t) ← history t ls
    return (o :: os, t)

end Checked

end LineCalc
