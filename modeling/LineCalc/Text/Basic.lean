/-!
# Texts

A text is a list of characters.  Besides the operator symbols and the parentheses the calculator
tells four classes of characters apart: blanks (the Unicode property `White_Space`), separators (the
four blanks that may stand between the tokens of a line), and the letters and the digits of ASCII,
which are `Char.isAlpha` and `Char.isDigit`.
-/

namespace LineCalc

/-- A line of input, a piece of one, or a piece of output. -/
abbrev Text := List Char

/-- The name of a variable.  A name that was read from a line consists of ASCII letters. -/
abbrev Name := Text

namespace Text

/-- The code points with the property `White_Space`, as closed ranges in ascending order. -/
def blankRanges : List (Nat × Nat) :=
  [(0x09, 0x0D), (0x20, 0x20), (0x85, 0x85), (0xA0, 0xA0), (0x1680, 0x1680), (0x2000, 0x200A),
   (0x2028, 0x2029), (0x202F, 0x202F), (0x205F, 0x205F), (0x3000, 0x3000)]

/-- Blanks surround a line, stand inside a run of signs, and end an expression. -/
def isBlank (c : Char) : Bool :=
  blankRanges.any fun r => r.1 ≤ c.toNat && c.toNat ≤ r.2

/-- Space, tab, carriage return and line feed: the blanks that may stand before a token. -/
def isSeparator (c : Char) : Bool := c.isWhitespace

/-- The text without the blanks it begins with. -/
def trimStart (t : Text) : Text := t.dropWhile isBlank

/-- The text without the blanks it ends in. -/
def trimEnd (t : Text) : Text := (t.reverse.dropWhile isBlank).reverse

/-- The text without the blanks around it. -/
def trim (t : Text) : Text := trimEnd (trimStart t)

/-- One or more ASCII digits. -/
def isNumeral (t : Text) : Bool := !t.isEmpty && t.all Char.isDigit

/-- One or more ASCII letters. -/
def isName (t : Text) : Bool := !t.isEmpty && t.all Char.isAlpha

theorem isBlank_of_isSeparator {c : Char} (h : isSeparator c = true) : isBlank c = true := by
  simp only [isSeparator, Char.isWhitespace, Bool.or_eq_true, decide_eq_true_eq] at h
  rcases h with ((rfl | rfl) | rfl) | rfl <;> decide

theorem isSeparator_eq_false_of_not_isBlank {c : Char} (h : isBlank c = false) :
    isSeparator c = false := by
  rw [Bool.eq_false_iff] at h ⊢
  exact fun hs => h (isBlank_of_isSeparator hs)

theorem isNumeral_iff {t : Text} :
    isNumeral t = true ↔ t ≠ [] ∧ ∀ c ∈ t, c.isDigit = true := by
  simp [isNumeral]

theorem isName_iff {t : Text} : isName t = true ↔ t ≠ [] ∧ ∀ c ∈ t, c.isAlpha = true := by
  simp [isName]

end Text

end LineCalc
