import LineCalc.Session.History
import LineCalc.Text.Names

/-!
# Renaming

A renaming puts a name in place of each name.  Here it is applied to lines and to what a session
makes of them.  Commands have no names: a line that gives one, and what `/help` prints, stay as they
are.
-/

namespace LineCalc

variable (r : Name → Name)

/-- The token with its name renamed. -/
def Token.rename : Token → Token
  | name x => name (r x)
  | k => k

/-- The source with its name renamed. -/
def Source.rename : Source → Source
  | copy sign x => copy sign (r x)
  | source => source

/-- The statement with its names renamed. -/
def Statement.rename : Statement → Statement
  | query x => query (r x)
  | assign x source => assign (r x) (source.rename r)
  | expression t => expression (t.mapNames r)
  | st => st

/-- The error with its name renamed. -/
def UnknownVariable.rename (e : UnknownVariable) : UnknownVariable := ⟨r e.name⟩

/-- The fault of an expression with its name renamed. -/
def Expression.Fault.rename : Expression.Fault → Expression.Fault
  | unknownVariable e => unknownVariable (e.rename r)
  | e => e

/-- The fault with its name renamed.  The line of an unknown command has no names. -/
def Fault.rename : Fault → Fault
  | expression e => expression (e.rename r)
  | unboundQuery x => unboundQuery (r x)
  | e => e

namespace Session

/-- A line gives a command if it begins with a slash, after the blanks before it, and has no sign of
equality. -/
def GivesCommand (line : Text) : Prop := line.trim.head? = some '/' ∧ '=' ∉ line.trim

instance (line : Text) : Decidable (GivesCommand line) := instDecidableAnd

/-- The line with its names renamed, unless it gives a command. -/
def renameLine (line : Text) : Text := if GivesCommand line then line else line.mapNames r

/-- The outcome of a statement with its names renamed.  Of all that is printed only the list of the
variables has names in it. -/
def renameOutcome (st : Statement) : Except Fault Outcome → Except Fault Outcome
  | .ok (.print t) => .ok (.print (if st = .command .listing then t.mapNames r else t))
  | .ok o => .ok o
  | .error e => .error (e.rename r)

end Session

end LineCalc
