import LineCalc.Text.Numeral
import LineCalc.Token.Basic

/-!
# From a text to tokens

`Token.scan` reads a text from left to right.  Before each token it skips separators, and it takes
the longest run of digits or of letters as one token.  What it leaves unread may only be blanks.
-/

namespace LineCalc

/-- A character that begins no token. -/
structure UnexpectedChar where
  char : Char
deriving DecidableEq, Repr

/-- The message for an unexpected character. -/
def UnexpectedChar.message (e : UnexpectedChar) : Text :=
  "Unexpected character: ".toList ++ [e.char]

namespace Token

/-- The token at the start of a text that begins with `c`, and the text after it. -/
def leading? (c : Char) (t : Text) : Option (Token × Text) :=
  if c.isDigit then
    some (int (Numeral.value (c :: t.takeWhile Char.isDigit)), t.dropWhile Char.isDigit)
  else if c.isAlpha then
    some (name (c :: t.takeWhile Char.isAlpha), t.dropWhile Char.isAlpha)
  else (ofSymbol? c).map (·, t)

/-- The first token of a text, after any separators, and the text after it. -/
def next? (t : Text) : Option (Token × Text) :=
  match t.dropWhile Text.isSeparator with
  | [] => none
  | c :: r => leading? c r

theorem length_of_leading? {c : Char} {t r : Text} {k : Token} (h : leading? c t = some (k, r)) :
    r.length ≤ t.length := by
  unfold leading? at h
  split at h
  · cases h
    exact (List.dropWhile_suffix _).length_le
  · split at h
    · cases h
      exact (List.dropWhile_suffix _).length_le
    · obtain ⟨_, _, h⟩ := Option.map_eq_some_iff.1 h
      cases h
      exact Nat.le_refl _

/-- Each token takes at least one character. -/
theorem length_of_next? {t r : Text} {k : Token} (h : next? t = some (k, r)) :
    r.length < t.length := by
  unfold next? at h
  have hs := (List.dropWhile_suffix (l := t) Text.isSeparator).length_le
  split at h
  · cases h
  · next c s hc =>
    rw [hc, List.length_cons] at hs
    exact Nat.lt_of_le_of_lt (length_of_leading? h) hs

/-- The tokens of a text up to the first place where none begins, and the unread rest. -/
def scanRest (t : Text) : List Token × Text :=
  match _h : next? t with
  | none => ([], t)
  | some (k, r) =>
    let (ks, rest) := scanRest r
    (k :: ks, rest)
termination_by t.length
decreasing_by exact length_of_next? _h

/-- The tokens of a text, or the first character that is neither part of a token nor a blank after
the last one. -/
def scan (t : Text) : Except UnexpectedChar (List Token) :=
  let (ks, rest) := scanRest t
  match rest.find? (!Text.isBlank ·) with
  | none => .ok ks
  | some c => .error ⟨c⟩

end Token

end LineCalc
