import LineCalc.Text.Basic

/-!
# Names in a text

The names in a text are its maximal runs of letters.
-/

namespace LineCalc.Text

/-- A name, or a character outside of names. -/
inductive Piece where
  | name (x : Name)
  | char (c : Char)
deriving DecidableEq, Repr

/-- A letter and the pieces after it, which it joins if they begin with a name. -/
def Piece.consLetter (c : Char) : List Piece → List Piece
  | .name x :: ps => .name (c :: x) :: ps
  | ps => .name [c] :: ps

/-- The names of a text and the characters between them. -/
def pieces : Text → List Piece
  | [] => []
  | c :: t => if c.isAlpha then Piece.consLetter c (pieces t) else .char c :: pieces t

/-- The names in a text, in order. -/
def namesIn (t : Text) : List Name :=
  (pieces t).filterMap fun
    | .name x => some x
    | .char _ => none

/-- The text with another text in place of each name. -/
def mapNames (f : Name → Text) (t : Text) : Text :=
  (pieces t).flatMap fun
    | .name x => f x
    | .char c => [c]

end LineCalc.Text
