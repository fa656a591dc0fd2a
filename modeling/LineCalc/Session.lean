import LineCalc.Expression
import LineCalc.Statement

/-!
# A session

A session runs one line after another on a store.  `execute` runs a line and keeps its fault apart;
`respond` shows the fault as a message instead.
-/

namespace LineCalc

/-- Why a line cannot be carried out. -/
inductive Fault where
  | expression (e : Expression.Fault)
  | unboundQuery (name : Name)
  | badAssignment
  | unknownCommand (line : Text)
deriving DecidableEq, Repr

/-- The message for the user.  It does not go into the details of a malformed expression. -/
def Fault.message : Fault → Text
  | expression (.unknownVariable _) => "Unknown variable".toList
  | expression _ => "Invalid expression".toList
  | unboundQuery _ => "Invalid identifier".toList
  | badAssignment => "Invalid assignment".toList
  | unknownCommand _ => "Unknown command".toList

/-- What a line that is carried out makes the session do. -/
inductive Outcome where
  | silent
  | print (t : Text)
  /-- Print the text and end the session. -/
  | exit (t : Text)
deriving DecidableEq, Repr

namespace Session

/-- The answer to `/help`. -/
def helpText : Text :=
  ("The program calculates the value of integer expressions.\n" ++
    "Supported operators: + - * / ^ and parentheses, e.g.\n" ++
    "  2 + 2 - 1\n" ++
    "  2 -- 1\n" ++
    "  1 +-+ 3\n" ++
    "  (8 * 3 + 12) / 4 ^ 2\n" ++
    "Variables hold integers: a = 5, b = a, b = -a\n" ++
    "Commands: /help /variables /exit").toList

/-- The answer to `/exit`. -/
def farewell : Text := "Bye!".toList

/-- The outcome of a command. -/
def runCommand (s : Store) : Command → Except Fault Outcome
  | .exit => .ok (.exit farewell)
  | .help => .ok (.print helpText)
  | .listing => .ok (.print s.render)
  | .unknown t => .error (.unknownCommand t)

/-- The integer that the right side of an assignment denotes. -/
def sourceValue (s : Store) : Source → Except UnknownVariable Int
  | .literal v => .ok v
  | .copy sign x => sign.apply <$> s.resolve x

/-- The outcome of a statement, and the store after it. -/
def run (s : Store) : Statement → Except Fault Outcome × Store
  | .empty => (.ok .silent, s)
  | .query x =>
    match s.get? x with
    | some v => (.ok (.print (Numeral.ofInt v)), s)
    | none => (.error (.unboundQuery x), s)
  | .assign x source =>
    match sourceValue s source with
    | .ok v => (.ok .silent, s.assign x v)
    | .error e => (.error (.expression (.unknownVariable e)), s)
  | .badAssignment => (.error .badAssignment, s)
  | .command c => (runCommand s c, s)
  | .expression t =>
    match Expression.value s t with
    | .ok v => (.ok (.print (Numeral.ofInt v)), s)
    | .error e => (.error (.expression e), s)

/-- The outcome of a line, and the store after it. -/
def execute (s : Store) (line : Text) : Except Fault Outcome × Store :=
  run s (Statement.classify line)

/-- The outcome of a line, with a message for a fault, and the store after it. -/
def respond (s : Store) (line : Text) : Outcome × Store :=
  match execute s line with
  | (.ok o, s') => (o, s')
  | (.error e, s') => (.print e.message, s')

end Session

end LineCalc
