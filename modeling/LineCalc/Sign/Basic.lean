/-!
# Signs

A plus or a minus in front of an operand.  Signs multiply: the net sign of a run is the product of
its signs.
-/

namespace LineCalc

/-- A sign. -/
inductive Sign where
  | plus
  | minus
deriving DecidableEq, Repr

namespace Sign

/-- The character that stands for the sign. -/
def symbol : Sign → Char
  | plus => '+'
  | minus => '-'

/-- The sign that a character stands for. -/
def ofSymbol? : Char → Option Sign
  | '+' => some plus
  | '-' => some minus
  | _ => none

/-- The net sign of two signs. -/
protected def mul : Sign → Sign → Sign
  | plus, s => s
  | minus, plus => minus
  | minus, minus => plus

instance : Mul Sign := ⟨Sign.mul⟩

/-- An integer with the sign put in front of it. -/
def apply : Sign → Int → Int
  | plus, n => n
  | minus, n => -n

theorem ofSymbol?_symbol (s : Sign) : ofSymbol? s.symbol = some s := by
  cases s <;> rfl

theorem ofSymbol?_symbol_ne_none (s : Sign) : ofSymbol? s.symbol ≠ none := by
  rw [ofSymbol?_symbol]
  exact Option.some_ne_none s

theorem ofSymbol?_eq_some_iff {c : Char} {s : Sign} : ofSymbol? c = some s ↔ c = s.symbol := by
  constructor
  · intro h
    unfold ofSymbol? at h
    split at h <;> cases h <;> rfl
  · rintro rfl
    exact ofSymbol?_symbol s

protected theorem mul_assoc (r s t : Sign) : r * s * t = r * (s * t) := by
  cases r <;> cases s <;> cases t <;> rfl

protected theorem mul_comm (r s : Sign) : r * s = s * r := by
  cases r <;> cases s <;> rfl

theorem plus_mul (s : Sign) : plus * s = s := rfl

theorem mul_plus (s : Sign) : s * plus = s := by
  cases s <;> rfl

end Sign

end LineCalc
