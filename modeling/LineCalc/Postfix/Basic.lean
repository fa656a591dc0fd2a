import LineCalc.Operator.Basic
import LineCalc.Text.Numeral

/-!
# Postfix expressions

In postfix form each operator stands after its operands, so that no parentheses are needed.
-/

namespace LineCalc

/-- An element of a postfix expression. -/
inductive Term where
  | int (n : Int)
  | op (o : Operator)
deriving DecidableEq, Repr

/-- A sequence of terms; not every one of them is well formed. -/
abbrev Postfix := List Term

/-- The text of a term. -/
def Term.render : Term → Text
  | int n => Numeral.ofInt n
  | op o => [o.symbol]

/-- The terms, with single spaces between them. -/
def Postfix.render (p : Postfix) : Text := [' '].intercalate (p.map Term.render)

/-- Both the conversion to postfix form and its evaluation go on only from a step that succeeds. -/
theorem bind_eq_ok_iff {ε α β : Type} {x : Except ε α} {f : α → Except ε β} {b : β} :
    x >>= f = .ok b ↔ ∃ a, x = .ok a ∧ f a = .ok b := by
  cases x with
  | error e => exact iff_of_false nofun fun ⟨_, h, _⟩ => nomatch h
  | ok a => exact ⟨fun h => ⟨a, rfl, h⟩, fun ⟨_, ha, h⟩ => Except.ok.inj ha ▸ h⟩

theorem bind_eq_error_iff {ε α β : Type} {x : Except ε α} {f : α → Except ε β} {e : ε} :
    x >>= f = .error e ↔ x = .error e ∨ ∃ a, x = .ok a ∧ f a = .error e := by
  cases x with
  | error e' => simp [bind, Except.bind]
  | ok a => simp [bind, Except.bind]

/-- A run fails at the first element that fails in the state after those before it. -/
theorem foldlM_eq_error_iff {ε α β : Type} {f : β → α → Except ε β} {b : β} {as : List α} {e : ε} :
    as.foldlM f b = .error e ↔
      ∃ xs a ys b', as = xs ++ a :: ys ∧ xs.foldlM f b = .ok b' ∧ f b' a = .error e := by
  constructor
  · intro h
    induction as generalizing b with
    | nil => cases h
    | cons a as ih =>
      rw [List.foldlM_cons, bind_eq_error_iff] at h
      rcases h with ha | ⟨b₁, ha, h⟩
      · exact ⟨[], a, as, b, rfl, rfl, ha⟩
      · obtain ⟨xs, a', ys, b', rfl, hxs, ha'⟩ := ih h
        refine ⟨a :: xs, a', ys, b', rfl, ?_, ha'⟩
        rw [List.foldlM_cons, ha]
        exact hxs
  · rintro ⟨xs, a, ys, b', rfl, hxs, ha⟩
    rw [List.foldlM_append, hxs]
    change (a :: ys).foldlM f b' = _
    rw [List.foldlM_cons, ha]
    rfl

end LineCalc
