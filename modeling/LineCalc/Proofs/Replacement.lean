import LineCalc.Expression

/-!
# A group and its value

A group in parentheses may be replaced with its value, whatever the tokens before and after it are
(`tokensResult_group`).  The conversion of the group neither looks at the output below it and the
open groups around it nor changes them, so it writes the postfix form of the group (`writes_group`);
and to any stack of values that form adds its value (`run_of_value`).
-/

namespace LineCalc

namespace Postfix

/-! ## The conversion of a group -/

namespace Yard

variable {signs : Operator → Bool} {y y' : Yard} {ts : List Token}

/-- The yard with further output below its own. -/
def onto (y : Yard) (out : Postfix) : Yard := { y with out := y.out ++ out }

/-- The yard with further open groups around its own. -/
def within (y : Yard) (outer : List (List Operator)) : Yard := { y with outer := y.outer ++ outer }

theorem release_append (ops : List Operator) (out out' : Postfix) :
    release ops (out ++ out') = release ops out ++ out' := by
  simp [release]

theorem stepOperator_onto (y : Yard) (out : Postfix) (b : Bool) (o : Operator) :
    (y.onto out).stepOperator b o = (y.stepOperator b o).onto out := by
  simp only [stepOperator, onto, release_append]
  split <;> rfl

/-- A token neither reads the output below nor changes it. -/
theorem step_onto (y : Yard) (out : Postfix) (k : Token) :
    step signs (y.onto out) k = (·.onto out) <$> step signs y k := by
  cases k with
  | int n => rfl
  | name x => rfl
  | op o => exact congrArg Except.ok (stepOperator_onto y out (signs o) o)
  | lparen => rfl
  | rparen =>
    obtain ⟨o, ops, outer, signed⟩ := y
    cases outer with
    | nil => rfl
    | cons os outer =>
      exact congrArg (fun u => Except.ok (Yard.mk u os outer false)) (release_append ops o out)

theorem foldlM_onto (y : Yard) (out : Postfix) (ts : List Token) :
    ts.foldlM (step signs) (y.onto out) = (·.onto out) <$> ts.foldlM (step signs) y := by
  induction ts generalizing y with
  | nil => rfl
  | cons k ts ih =>
    rw [List.foldlM_cons, List.foldlM_cons, step_onto]
    cases step signs y k with
    | error e => rfl
    | ok y₁ => exact ih y₁

theorem finish_onto (y : Yard) (out : Postfix) :
    (y.onto out).finish = (out.reverse ++ ·) <$> y.finish := by
  obtain ⟨o, ops, outer, signed⟩ := y
  cases outer with
  | nil =>
    change Except.ok _ = Except.ok _
    rw [onto, release_append, List.reverse_append]
  | cons os outer => rfl

theorem finish_foldlM_onto (y : Yard) (out : Postfix) (ts : List Token) :
    ts.foldlM (step signs) (y.onto out) >>= finish =
      (out.reverse ++ ·) <$> (ts.foldlM (step signs) y >>= finish) := by
  rw [foldlM_onto]
  cases ts.foldlM (step signs) y with
  | error e => rfl
  | ok z => exact finish_onto z out

/-- A token that the yard reads by itself leaves the open groups around it as they are. -/
theorem step_within {k : Token} (h : step signs y k = .ok y') (outer : List (List Operator)) :
    step signs (y.within outer) k = .ok (y'.within outer) := by
  obtain ⟨n, rfl, rfl⟩ | ⟨o, rfl, rfl⟩ | ⟨rfl, rfl⟩ | ⟨ops, outer', rfl, houter, rfl⟩ := step_cases h
  · rfl
  · rfl
  · rfl
  · simp [step, within, houter]

theorem foldlM_within (h : ts.foldlM (step signs) y = .ok y') (outer : List (List Operator)) :
    ts.foldlM (step signs) (y.within outer) = .ok (y'.within outer) := by
  induction ts generalizing y with
  | nil => cases h; rfl
  | cons k ts ih =>
    rw [List.foldlM_cons, bind_eq_ok_iff] at h
    obtain ⟨y₁, hk, h⟩ := h
    rw [List.foldlM_cons, step_within hk outer]
    exact ih h

/-- Tokens that write the terms `p` wherever they stand, as an operand does. -/
def Writes (signs : Operator → Bool) (ks : List Token) (p : Postfix) : Prop :=
  ∀ (y : Yard) (us : List Token), (ks ++ us).foldlM (step signs) y =
    us.foldlM (step signs) ⟨p.reverse ++ y.out, y.ops, y.outer, false⟩

theorem writes_int (signs : Operator → Bool) (n : Int) : Writes signs [.int n] [.int n] :=
  fun _ _ => rfl

/-- Tokens with a postfix form write this form when they are a group in parentheses. -/
theorem writes_group {p : Postfix} (h : ofTokensWith signs ts = .ok p) :
    Writes signs (.lparen :: ts ++ [.rparen]) p := by
  intro y us
  obtain ⟨y₁, hstart, houter, rfl⟩ := ofTokensWith_eq_ok_iff.1 h
  -- The group begins as the tokens do by themselves, but for what is below and around it.
  have hgroup : ts.foldlM (step signs) ⟨y.out, [], y.ops :: y.outer, true⟩ =
      .ok ((y₁.within (y.ops :: y.outer)).onto y.out) := by
    refine (foldlM_onto (start.within (y.ops :: y.outer)) y.out ts).trans ?_
    rw [foldlM_within hstart]
    rfl
  rw [List.cons_append, List.cons_append, List.append_assoc, List.foldlM_cons]
  change List.foldlM _ (Yard.mk y.out [] (y.ops :: y.outer) true) _ = _
  rw [List.foldlM_append, hgroup, within, houter, List.reverse_reverse, ← release_append]
  rfl

end Yard

/-- Whatever operand stands between them, the tokens before and after it fail in the same way, or
write the same terms before and after its terms. -/
theorem ofTokensWith_around (signs : Operator → Bool) (ts us : List Token) :
    (∃ e, ∀ ks p, Yard.Writes signs ks p → ofTokensWith signs (ts ++ (ks ++ us)) = .error e) ∨
      ∃ q r, ∀ ks p, Yard.Writes signs ks p →
        ofTokensWith signs (ts ++ (ks ++ us)) = .ok (q ++ (p ++ r)) := by
  cases hts : ts.foldlM (Yard.step signs) .start with
  | error e =>
    refine Or.inl ⟨e, fun ks p _ => ?_⟩
    rw [ofTokensWith, List.foldlM_append, hts]
    rfl
  | ok y =>
    have haround (ks : List Token) (p : Postfix) (hks : Yard.Writes signs ks p) :
        ofTokensWith signs (ts ++ (ks ++ us)) = ((p.reverse ++ y.out).reverse ++ ·) <$>
          (us.foldlM (Yard.step signs) ⟨[], y.ops, y.outer, false⟩ >>= Yard.finish) := by
      rw [ofTokensWith, List.foldlM_append, hts, ← Yard.finish_foldlM_onto]
      exact congrArg (· >>= Yard.finish) (hks y us)
    cases hus : us.foldlM (Yard.step signs) ⟨[], y.ops, y.outer, false⟩ >>= Yard.finish with
    | error e =>
      refine Or.inl ⟨e, fun ks p hks => ?_⟩
      rw [haround ks p hks, hus]
      rfl
    | ok r =>
      refine Or.inr ⟨y.out.reverse, r, fun ks p hks => ?_⟩
      rw [haround ks p hks, hus, List.reverse_append, List.reverse_reverse]
      exact congrArg Except.ok (List.append_assoc _ _ _)

/-! ## The value of a group -/

theorem step_append {st st' : List Int} {k : Term} (h : step st k = .ok st') (rest : List Int) :
    step (st ++ rest) k = .ok (st' ++ rest) := by
  cases k with
  | int n => cases h; rfl
  | op o =>
    obtain ⟨a, b, v, below, rfl, hv, rfl⟩ := step_op_eq_ok_iff.1 h
    exact step_op_eq_ok_iff.2 ⟨a, b, v, below ++ rest, rfl, hv, rfl⟩

/-- A run that needs no more values than it has does not touch the values below. -/
theorem run_append_stack {st st' : List Int} {p : Postfix} (h : run st p = .ok st')
    (rest : List Int) : run (st ++ rest) p = .ok (st' ++ rest) := by
  induction p generalizing st with
  | nil => cases h; rfl
  | cons k p ih =>
    rw [run_cons, bind_eq_ok_iff] at h
    obtain ⟨st₁, hk, h⟩ := h
    rw [run_cons, step_append hk rest]
    exact ih h

/-- A postfix expression with a value pushes this value on any stack. -/
theorem run_of_value {p : Postfix} {v : Int} (h : value p = .ok v) (st : List Int) :
    run st p = .ok (v :: st) :=
  run_append_stack (value_eq_ok_iff.1 h) st

theorem value_replace {p : Postfix} {v : Int} (h : value p = .ok v) (q r : Postfix) :
    value (q ++ (p ++ r)) = value (q ++ ([.int v] ++ r)) := by
  have hrun : ∀ st, run st (p ++ r) = run st ([.int v] ++ r) := fun st => by
    rw [run_append, run_append, run_of_value h]
    rfl
  rw [value, value, run_append, run_append]
  simp only [hrun]

end Postfix

namespace Expression

/-- The value of infix tokens as they stand; `tokensValue` encloses their signs first. -/
def tokensResult (ts : List Token) : Except Fault Int := do
  let p ← (Postfix.ofTokens ts).mapError .convert
  p.value.mapError .eval

/-- A group with a value may be replaced with this value: whatever tokens stand before and after it,
the value of the whole, or the fault, is the same. -/
theorem tokensResult_group {ts : List Token} {p : Postfix} {v : Int}
    (hp : Postfix.ofTokens ts = .ok p) (hv : p.value = .ok v) (us ws : List Token) :
    tokensResult (us ++ [.lparen] ++ ts ++ [.rparen] ++ ws) =
      tokensResult (us ++ [.int v] ++ ws) := by
  have hgroup := Postfix.Yard.writes_group hp
  have hint := Postfix.Yard.writes_int Postfix.signsAfter v
  have hassoc : us ++ [.lparen] ++ ts ++ [.rparen] ++ ws =
      us ++ (.lparen :: ts ++ [.rparen] ++ ws) := by simp
  rw [hassoc, List.append_assoc us, tokensResult, tokensResult, Postfix.ofTokens, Postfix.ofTokens]
  obtain ⟨e, h⟩ | ⟨q, r, h⟩ := Postfix.ofTokensWith_around Postfix.signsAfter us ws
  · rw [h _ _ hgroup, h _ _ hint]
  · rw [h _ _ hgroup, h _ _ hint]
    exact congrArg (Except.mapError Fault.eval) (Postfix.value_replace hv q r)

/-- A group with a negative value, in a product and after a parenthesis that closes nothing. -/
theorem tokensResult_group_negative :
    Postfix.ofTokens [.op .sub, .int 3] = .ok [.int 0, .int 3, .op .sub] ∧
    Postfix.value [.int 0, .int 3, .op .sub] = .ok (-3) ∧
    tokensResult ([.int 2, .op .mul] ++ [.lparen] ++ [.op .sub, .int 3] ++ [.rparen] ++
      [.op .add, .int 1]) = .ok (-5) ∧
    tokensResult ([.rparen] ++ [.lparen] ++ [.op .sub, .int 3] ++ [.rparen] ++ [.name ['a']]) =
      .error (.convert .unmatchedRightParen) := by
  have hp : Postfix.ofTokens [.op .sub, .int 3] = .ok [.int 0, .int 3, .op .sub] := rfl
  have hv : Postfix.value [.int 0, .int 3, .op .sub] = .ok (-3) := rfl
  refine ⟨hp, hv, ?_, ?_⟩
  · rw [tokensResult_group hp hv]
    rfl
  · rw [tokensResult_group hp hv]
    rfl

end Expression

end LineCalc
