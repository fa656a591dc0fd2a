import LineCalc.Sign.Basic
import LineCalc.Text.Numeral

/-!
# Kinds of lines

A line shows a variable, assigns one, gives a command, or is an expression.  `Statement.classify`
tells them apart by their shape, without the blanks around the line.
-/

namespace LineCalc

/-- A command to the session. -/
inductive Command where
  | exit
  | help
  /-- List the variables. -/
  | listing
  /-- A line that begins like a command and is none. -/
  | unknown (line : Text)
deriving DecidableEq, Repr

/-- The command that a line gives. -/
def Command.ofLine (t : Text) : Command :=
  if t = "/exit".toList then exit
  else if t = "/help".toList then help
  else if t = "/variables".toList then listing
  else unknown t

/-- The right side of an assignment. -/
inductive Source where
  | literal (v : Int)
  | copy (sign : Sign) (name : Name)
deriving DecidableEq, Repr

/-- What a line asks for. -/
inductive Statement where
  | empty
  | query (name : Name)
  | assign (target : Name) (source : Source)
  | badAssignment
  | command (c : Command)
  | expression (t : Text)
deriving DecidableEq, Repr

namespace Source

/-- A text without the sign at its start, and that sign; a text without one has a plus. -/
def splitSign : Text → Sign × Text
  | [] => (.plus, [])
  | c :: t =>
    match Sign.ofSymbol? c with
    | some s => (s, t)
    | none => (.plus, c :: t)

/-- The source that a text denotes: at most one sign, and then a numeral or a name. -/
def ofText? (t : Text) : Option Source :=
  let (s, r) := splitSign t
  if Text.isNumeral r then some (.literal (s.apply (Numeral.value r)))
  else if Text.isName r then some (.copy s r)
  else none

end Source

namespace Statement

/-- The name before the sign of equality of an assignment, and what stands after that sign.  Only
separators may stand on its two sides. -/
def splitTarget? (t : Text) : Option (Name × Text) :=
  let x := t.takeWhile Char.isAlpha
  match (t.dropWhile Char.isAlpha).dropWhile Text.isSeparator with
  | '=' :: r => if x.isEmpty then none else some (x, r.dropWhile Text.isSeparator)
  | _ => none

/-- The assignment that a text denotes. -/
def assignment? (t : Text) : Option Statement := do
  let (x, r) ← splitTarget? t
  let source ← Source.ofText? r
  return assign x source

/-- The statement of a text that has no blanks around it. -/
def ofTrimmed (t : Text) : Statement :=
  if Text.isName t then query t
  else
    match assignment? t with
    | some st => st
    | none =>
      if '=' ∈ t then badAssignment
      else if t.isEmpty then empty
      else if t.head? = some '/' then command (.ofLine t)
      else expression t

/-- The statement of a line. -/
def classify (line : Text) : Statement := ofTrimmed line.trim

end Statement

end LineCalc
