import LineCalc.Text.Numeral
import LineCalc.Token.Basic

/-!
# Renderings of tokens

A rendering of a list of tokens is a text that spells the tokens one after another.  Gaps may stand
before each token, and must stand between two integers and between two names; after the last token
there may be blanks.
-/

namespace LineCalc.Token

/-- The texts that spell a single token. -/
inductive Spells : Token → Text → Prop
  | int {ds : Text} (h : ds.isNumeral = true) : Spells (.int (Numeral.value ds)) ds
  | name {x : Name} (h : x.isName = true) : Spells (.name x) x
  | op (o : Operator) : Spells (.op o) [o.symbol]
  | lparen : Spells .lparen ['(']
  | rparen : Spells .rparen [')']

/-- Whether two tokens would be read as one if they were written without a gap. -/
def clings : Token → Token → Bool
  | .int _, .int _ => true
  | .name _, .name _ => true
  | _, _ => false

/-- The texts that spell a list of tokens, with gaps of the characters that `gap` accepts. -/
inductive Rendering (gap : Char → Bool) : List Token → Text → Prop
  | nil {w : Text} (h : w.all Text.isBlank = true) : Rendering gap [] w
  | cons {w u t : Text} {k : Token} {ks : List Token} (hw : w.all gap = true) (hu : Spells k u)
      (apart : ∀ l ∈ ks.head?, clings k l = true → ∃ c ∈ t.head?, gap c = true)
      (ht : Rendering gap ks t) : Rendering gap (k :: ks) (w ++ u ++ t)

end LineCalc.Token
