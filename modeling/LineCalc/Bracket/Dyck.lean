import LineCalc.Bracket

/-!
# Dyck words

The sequences of parentheses that can be matched in pairs.  A text is balanced exactly if its
parentheses form a Dyck word (`balanced_iff`).
-/

namespace LineCalc.Bracket

/-- The sequences of parentheses in which every one has its partner. -/
inductive Dyck : Text → Prop
  | nil : Dyck []
  | cons {u v : Text} (hu : Dyck u) (hv : Dyck v) : Dyck ('(' :: (u ++ ')' :: v))

/-- The parentheses of a text. -/
def parens (t : Text) : Text := t.filter fun c => c = '(' || c = ')'

/-- The sequences of parentheses that close `d` open ones, with Dyck words between. -/
def Closing : Nat → Text → Prop
  | 0, w => Dyck w
  | d + 1, w => ∃ u v, Dyck u ∧ w = u ++ ')' :: v ∧ Closing d v

theorem Closing.dyck_append {d : Nat} {u w : Text} (hu : Dyck u) (hw : Closing d w) :
    Closing d (u ++ w) := by
  induction hu generalizing w with
  | nil => exact hw
  | @cons u v hu hv _ ih =>
    have hw := ih hw
    rw [List.cons_append, List.append_assoc, List.cons_append]
    cases d with
    | zero => exact .cons hu hw
    | succ d =>
      obtain ⟨a, b, ha, hab, hb⟩ := hw
      exact ⟨'(' :: (u ++ ')' :: a), b, .cons hu ha, by simp [hab], hb⟩

theorem closes_parens (d : Nat) (t : Text) : closes d (parens t) = closes d t := by
  induction t generalizing d with
  | nil => rfl
  | cons c t ih =>
    by_cases ho : c = '('
    · subst ho
      exact ih (d + 1)
    by_cases hc : c = ')'
    · subst hc
      cases d with
      | zero => rfl
      | succ d => exact ih d
    have hp : parens (c :: t) = parens t := by simp [parens, ho, hc]
    rw [hp, ih]
    simp [closes.eq_def d (c :: t), ho, hc]

theorem closes_dyck_append {u : Text} (hu : Dyck u) (d : Nat) (t : Text) :
    closes d (u ++ t) = closes d t := by
  induction hu generalizing d t with
  | nil => rfl
  | @cons u v _ _ ihu ihv =>
    have h : closes d ('(' :: (u ++ ')' :: v) ++ t) = closes (d + 1) (u ++ ')' :: (v ++ t)) := by
      simp [closes]
    rw [h, ihu]
    exact ihv d t

theorem closing_of_closes {d : Nat} {t : Text} (h : closes d (parens t) = true) :
    Closing d (parens t) := by
  induction t generalizing d with
  | nil =>
    cases d with
    | zero => exact .nil
    | succ d => cases h
  | cons c t ih =>
    by_cases ho : c = '('
    · subst ho
      obtain ⟨u, v, hu, huv, hv⟩ := ih (d := d + 1) h
      have hp : parens ('(' :: t) = '(' :: (u ++ ')' :: []) ++ v := by
        simpa [parens] using huv
      rw [hp]
      exact Closing.dyck_append (.cons hu .nil) hv
    by_cases hc : c = ')'
    · subst hc
      cases d with
      | zero => cases h
      | succ d => exact ⟨[], parens t, .nil, rfl, ih h⟩
    have hp : parens (c :: t) = parens t := by simp [parens, ho, hc]
    rw [hp] at h ⊢
    exact ih h

theorem balanced_iff {t : Text} : balanced t = true ↔ Dyck (parens t) := by
  rw [balanced, ← closes_parens]
  refine ⟨closing_of_closes, fun h => ?_⟩
  rw [← List.append_nil (parens t), closes_dyck_append h]
  rfl

end LineCalc.Bracket
