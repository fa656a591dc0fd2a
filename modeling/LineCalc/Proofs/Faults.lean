import LineCalc.Proofs.Parens

/-!
# The faults of a text

Which fault a text has is decided by the text and the bound names, in a fixed order
(`value_fault`): first by its parentheses, then by its first unexpected character, then by its first
unbound name.  The tokens stay balanced in every stage, so the conversion to postfix form always
succeeds (`exists_ofTokensWith`), and only the arithmetic is left to fail.
-/

namespace LineCalc

open Token

/-! ## The conversion of balanced tokens -/

theorem Sign.names_encloseFrom (st : Sign.Enclosing) (ts : List Token) :
    names (Sign.encloseFrom st ts) = names ts := by
  have hrparens (n : Nat) (ks : List Token) :
      names (List.replicate n .rparen ++ ks) = names ks := by
    induction n with
    | zero => rfl
    | succ n ih => exact ih
  induction ts generalizing st with
  | nil =>
    rw [Sign.encloseFrom, ← List.append_nil (List.replicate _ _), hrparens]
  | cons k ts ih =>
    rw [Sign.encloseFrom]
    have hstep := st.step_next k
    have htail := ih (st.next k)
    generalize st.emit k = us, st.next k = st' at hstep htail ⊢
    cases hstep with
    | operand =>
      rw [List.cons_append, names_cons, names_cons, ← htail]
      exact congrArg _ (hrparens _ _)
    | _ => exact htail

namespace Postfix

variable {signs : Operator → Bool} {ts : List Token}

/-- The conversion reads the tokens that close the open groups, and leaves no group open. -/
theorem exists_foldlM_step {y : Yard} (hn : names ts = [])
    (h : Bracket.closes y.outer.length (parens ts) = true) :
    ∃ y', ts.foldlM (Yard.step signs) y = .ok y' ∧ y'.outer = [] := by
  induction ts generalizing y with
  | nil => exact ⟨y, rfl, List.length_eq_zero_iff.1 (of_decide_eq_true h)⟩
  | cons k ts ih =>
    rw [closes_parens_cons] at h
    rw [List.foldlM_cons]
    cases k with
    | int n => exact ih (y := { y with out := .int n :: y.out, signed := false }) hn h
    | name x => cases hn
    | op o => exact ih (y := y.stepOperator (signs o) o) hn h
    | lparen => exact ih (y := ⟨y.out, [], y.ops :: y.outer, true⟩) hn h
    | rparen =>
      obtain ⟨out, ops, outer, signed⟩ := y
      cases outer with
      | nil => cases h
      | cons os outer => exact ih (y := ⟨Yard.release ops out, os, outer, false⟩) hn h

theorem exists_ofTokensWith (hn : names ts = []) (h : Bracket.closes 0 (parens ts) = true) :
    ∃ p, ofTokensWith signs ts = .ok p := by
  obtain ⟨y, hy, houter⟩ : ∃ y, ts.foldlM (Yard.step signs) .start = .ok y ∧ y.outer = [] :=
    exists_foldlM_step hn h
  exact ⟨_, ofTokensWith_eq_ok_iff.2 ⟨y, hy, houter, rfl⟩⟩

end Postfix

namespace Expression

variable {s : Store} {t : Text} {ks : List Token}

/-- A balanced text of tokens with bound names has a postfix form, which gives its value. -/
theorem exists_postfix {v : Name → Int} (hb : Bracket.Dyck (Bracket.parens t))
    (h : Rendering Text.isBlank ks t) (hv : ∀ x ∈ names ks, s.get? x = some (v x)) :
    ∃ p, Postfix.ofTokens (Sign.enclose (withValues v (mergeSigns (.op .add :: ks)))) = .ok p ∧
      value s t = p.value.mapError .eval := by
  have hcloses : Bracket.closes 0 (parens (withValues v (mergeSigns (.op .add :: ks)))) = true := by
    rw [closes_withValues, parens_mergeSigns]
    exact (dyck_iff_closes h).1 hb
  obtain ⟨p, hp⟩ : ∃ p, Postfix.ofTokens
      (Sign.enclose (withValues v (mergeSigns (.op .add :: ks)))) = .ok p :=
    Postfix.exists_ofTokensWith ((Sign.names_encloseFrom _ _).trans (names_withValues _ _))
      (Sign.closes_encloseFrom .start rfl hcloses)
  refine ⟨p, hp, ?_⟩
  have hsub : s.substitute (mergeSigns (.op .add :: ks)) =
      .ok (withValues v (mergeSigns (.op .add :: ks))) := by
    refine substitute_eq fun x hx => hv x ?_
    rwa [names_mergeSigns] at hx
  rw [value_of_rendering hb h, hsub]
  change (Except.mapError Fault.convert (Postfix.ofTokens _) >>= _) = _
  rw [hp]
  rfl

theorem value_of_rendering_unbound {x : Name} (hb : Bracket.Dyck (Bracket.parens t))
    (h : Rendering Text.isBlank ks t)
    (hx : (names ks).find? (fun y => (s.get? y).isNone) = some x) :
    value s t = .error (.unknownVariable ⟨x⟩) := by
  have hsub : s.substitute (mergeSigns (.op .add :: ks)) = .error ⟨x⟩ := by
    refine substitute_eq_error ?_
    rw [names_mergeSigns]
    exact hx
  rw [value_of_rendering hb h, hsub]
  rfl

theorem value_of_unbound {x : Name} (hb : Bracket.Dyck (Bracket.parens t))
    (hf : t.find? (fun c => !Text.isBlank c && !isPart c) = none)
    (hx : (Text.namesIn t).find? (fun y => (s.get? y).isNone) = some x) :
    value s t = .error (.unknownVariable ⟨x⟩) := by
  obtain ⟨ks, hks⟩ := exists_rendering_of_find? hf
  rw [namesIn_of_rendering (fun _ h => h) hks] at hx
  exact value_of_rendering_unbound hb hks hx

theorem get?_of_find? (hx : (names ks).find? (fun y => (s.get? y).isNone) = none) :
    ∀ x ∈ names ks, s.get? x = some ((s.get? x).getD 0) := by
  intro x hm
  have hbound := List.find?_eq_none.1 hx x hm
  cases hg : s.get? x with
  | none => simp [hg] at hbound
  | some n => rfl

/-- With balanced parentheses, admitted characters and bound names only the evaluation can fail. -/
theorem value_of_bound (hb : Bracket.Dyck (Bracket.parens t))
    (hf : t.find? (fun c => !Text.isBlank c && !isPart c) = none)
    (hx : (Text.namesIn t).find? (fun y => (s.get? y).isNone) = none) :
    (∃ n, value s t = .ok n) ∨ ∃ e, value s t = .error (.eval e) := by
  obtain ⟨ks, hks⟩ := exists_rendering_of_find? hf
  rw [namesIn_of_rendering (fun _ h => h) hks] at hx
  obtain ⟨p, -, hp⟩ := exists_postfix hb hks (get?_of_find? hx)
  rw [hp]
  cases p.value with
  | ok n => exact Or.inl ⟨n, rfl⟩
  | error e => exact Or.inr ⟨e, rfl⟩

/-- The stages check one after another the parentheses, the characters and the names, and then the
text is computed. -/
theorem value_cases (s : Store) (t : Text) :
    ¬ Bracket.Dyck (Bracket.parens t) ∧ value s t = .error .unbalanced ∨
    Bracket.Dyck (Bracket.parens t) ∧
      ((∃ c, t.find? (fun d => !Text.isBlank d && !isPart d) = some c ∧
          value s t = .error (.scan ⟨c⟩)) ∨
        t.find? (fun d => !Text.isBlank d && !isPart d) = none ∧
          ((∃ x, (Text.namesIn t).find? (fun y => (s.get? y).isNone) = some x ∧
              value s t = .error (.unknownVariable ⟨x⟩)) ∨
            (Text.namesIn t).find? (fun y => (s.get? y).isNone) = none ∧
              ((∃ n, value s t = .ok n) ∨ ∃ e, value s t = .error (.eval e)))) := by
  by_cases hb : Bracket.Dyck (Bracket.parens t)
  · refine Or.inr ⟨hb, ?_⟩
    cases hf : t.find? (fun d => !Text.isBlank d && !isPart d) with
    | some c => exact Or.inl ⟨c, rfl, value_of_unexpected hb hf⟩
    | none =>
      refine Or.inr ⟨rfl, ?_⟩
      cases hx : (Text.namesIn t).find? (fun y => (s.get? y).isNone) with
      | some x => exact Or.inl ⟨x, rfl, value_of_unbound hb hf hx⟩
      | none => exact Or.inr ⟨rfl, value_of_bound hb hf hx⟩
  · exact Or.inl ⟨hb, value_of_not_dyck hb⟩

/-- The fault of a text is decided in a fixed order: by its parentheses, by its first character that
is neither a blank nor part of a token, by its first unbound name.  A text without these faults has
a value or fails in the evaluation; the conversion to postfix form never fails. -/
theorem value_fault (s : Store) (t : Text) :
    (value s t = .error .unbalanced ↔ ¬ Bracket.Dyck (Bracket.parens t)) ∧
    (∀ c, value s t = .error (.scan ⟨c⟩) ↔
      Bracket.Dyck (Bracket.parens t) ∧
      t.find? (fun d => !Text.isBlank d && !isPart d) = some c) ∧
    (∀ x, value s t = .error (.unknownVariable ⟨x⟩) ↔
      Bracket.Dyck (Bracket.parens t) ∧
      t.find? (fun d => !Text.isBlank d && !isPart d) = none ∧
      (Text.namesIn t).find? (fun y => (s.get? y).isNone) = some x) ∧
    ((∃ n, value s t = .ok n) ∨ (∃ e, value s t = .error (.eval e)) ↔
      Bracket.Dyck (Bracket.parens t) ∧
      t.find? (fun d => !Text.isBlank d && !isPart d) = none ∧
      (Text.namesIn t).find? (fun y => (s.get? y).isNone) = none) ∧
    ∀ e, value s t ≠ .error (.convert e) := by
  obtain ⟨hb, hv⟩ | ⟨hb, ⟨c, hf, hv⟩ | ⟨hf, ⟨x, hx, hv⟩ | ⟨hx, ⟨n, hv⟩ | ⟨e, hv⟩⟩⟩⟩ :=
    value_cases s t
  · simp [hv, hb]
  · simp [hv, hb, hf]
  · simp [hv, hb, hf, hx]
  · simp [hv, hb, hf, hx]
  · simp [hv, hb, hf, hx]

end Expression

end LineCalc
