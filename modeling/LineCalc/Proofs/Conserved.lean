import LineCalc.Postfix.Convert

/-!
# What the conversion keeps

An operator waits until one comes in that does not bind more strongly, or its group ends, or all
tokens have been read.  In each case it is taken from the waiting operators when it is written
(`Yard.release_perm`).  So the operators that are written and those that wait are together the ones
that have been read, in whatever order the tokens stand, and at the end no operator waits
(`ofTokens_conserves`).

An integer is written at once.  The only other operands are the zeros from which a minus that is a
sign subtracts.
-/

namespace LineCalc

/-- The integer that a term is. -/
def Term.int? : Term → Option Int
  | int n => some n
  | op _ => none

/-- The operator that a term is. -/
def Term.operator? : Term → Option Operator
  | int _ => none
  | op o => some o

namespace Token

/-- The operator that a token is. -/
def operator? : Token → Option Operator
  | op o => some o
  | _ => none

/-- Whether a minus is a sign after a token, or at the start: it is after an opening parenthesis and
after every operator other than `^`. -/
def minusIsSign : Option Token → Bool
  | none => true
  | some lparen => true
  | some (op o) => o ≠ .pow
  | some _ => false

/-- What is written at once for a token, given whether a minus is a sign there: an integer, or the
zero before a sign. -/
def operand? (signed : Bool) : Token → Option Int
  | int n => some n
  | op .sub => if signed then some 0 else none
  | _ => none

/-- The operands of tokens, given the token before the first of them. -/
def operandsAfter (before : Option Token) : List Token → List Int
  | [] => []
  | k :: ks => (k.operand? (minusIsSign before)).toList ++ operandsAfter (some k) ks

end Token

namespace Postfix

namespace Yard

/-- The operands that have been written. -/
def operands (y : Yard) : List Int := (y.out.filterMap Term.int?).reverse

/-- The operators that have been written, and those that wait. -/
def operators (y : Yard) : List Operator :=
  y.out.filterMap Term.operator? ++ (y.ops ++ y.outer.flatten)

theorem int?_release (ops : List Operator) (out : Postfix) :
    (release ops out).filterMap Term.int? = out.filterMap Term.int? := by
  have hops : (ops.map Term.op).filterMap Term.int? = [] :=
    List.filterMap_eq_nil_iff.2 (List.forall_mem_map.2 fun _ _ => rfl)
  rw [release, List.filterMap_append, List.filterMap_reverse, hops]
  rfl

/-- An operator that is released has been waiting. -/
theorem release_perm (ops rest : List Operator) (out : Postfix) :
    ((release ops out).filterMap Term.operator? ++ rest).Perm
      (out.filterMap Term.operator? ++ (ops ++ rest)) := by
  have hops : (ops.map Term.op).filterMap Term.operator? = ops := by
    rw [List.filterMap_map]
    exact List.filterMap_some
  rw [release, List.filterMap_append, List.filterMap_reverse, hops, ← List.append_assoc]
  exact (List.perm_append_comm.trans ((List.reverse_perm ops).append_left _)).append_right rest

/-- The waiting operators that are released, and those behind them that go on waiting, are the ones
that have been waiting. -/
theorem release_takeWhile_perm (q : Operator → Bool) (ops rest : List Operator) (out : Postfix) :
    ((release (ops.takeWhile q) out).filterMap Term.operator? ++ (ops.dropWhile q ++ rest)).Perm
      (out.filterMap Term.operator? ++ (ops ++ rest)) := by
  have hrelease := release_perm (ops.takeWhile q) (ops.dropWhile q ++ rest) out
  rwa [← List.append_assoc (ops.takeWhile q), List.takeWhile_append_dropWhile] at hrelease

/-- The second yard holds the operands of the first and `ns` after them, and its operators and `os`
besides. -/
structure Gains (y y' : Yard) (ns : List Int) (os : List Operator) : Prop where
  operands : y'.operands = y.operands ++ ns
  operators : y'.operators.Perm (y.operators ++ os)

variable {signs : Operator → Bool} {y y' : Yard} {k : Token} {ts : List Token}

theorem Gains.refl (y : Yard) : y.Gains y [] [] where
  operands := (List.append_nil _).symm
  operators := .of_eq (List.append_nil _).symm

theorem Gains.trans {y'' : Yard} {ns ns' : List Int} {os os' : List Operator}
    (h : y.Gains y' ns os) (h' : y'.Gains y'' ns' os') : y.Gains y'' (ns ++ ns') (os ++ os') where
  operands := by rw [h'.operands, h.operands, List.append_assoc]
  operators := by
    rw [← List.append_assoc]
    exact h'.operators.trans (h.operators.append_right os')

/-! ## One token -/

theorem operands_stepOperator (y : Yard) (b : Bool) (o : Operator) :
    (y.stepOperator b o).operands =
      y.operands ++ ((Token.op o).operand? y.signed).toList := by
  simp only [operands, stepOperator]
  split
  · next h =>
    obtain ⟨rfl, hsigned⟩ := h
    simp [Term.int?, int?_release, Token.operand?, hsigned]
  · next h =>
    have hnone : (Token.op o).operand? y.signed = none := by
      cases o with
      | sub => simpa [Token.operand?] using h
      | _ => rfl
    simp [int?_release, hnone]

theorem operators_stepOperator (y : Yard) (b : Bool) (o : Operator) :
    (y.stepOperator b o).operators.Perm (y.operators ++ [o]) := by
  have hout : (y.stepOperator b o).out.filterMap Term.operator? =
      (release (y.ops.takeWhile (o.precedence ≤ ·.precedence)) y.out).filterMap Term.operator? := by
    simp only [stepOperator]
    split <;> rfl
  have hrelease := release_takeWhile_perm (o.precedence ≤ ·.precedence) y.ops y.outer.flatten y.out
  rw [operators, hout]
  exact List.perm_middle.trans ((hrelease.cons o).trans (List.perm_append_singleton o _).symm)

/-- Of a token that is read the yard gains its operand and its operator. -/
theorem gains_step (h : y.step signs k = .ok y') :
    y.Gains y' (k.operand? y.signed).toList k.operator?.toList := by
  obtain ⟨n, rfl, rfl⟩ | ⟨o, rfl, rfl⟩ | ⟨rfl, rfl⟩ | ⟨ops, outer, rfl, houter, rfl⟩ :=
    step_cases h
  · refine ⟨?_, .of_eq ?_⟩
    · simp [operands, Term.int?, Token.operand?]
    · simp [operators, List.filterMap_cons, Term.operator?, Token.operator?]
  · exact ⟨operands_stepOperator y (signs o) o, operators_stepOperator y (signs o) o⟩
  · refine ⟨?_, .of_eq ?_⟩
    · simp [operands, Token.operand?]
    · simp [operators, Token.operator?]
  · refine ⟨?_, ?_⟩
    · simp [operands, int?_release, Token.operand?]
    · have hrelease := release_perm y.ops (ops ++ outer.flatten) y.out
      simpa [operators, houter, Token.operator?] using hrelease

theorem signed_step (h : y.step Postfix.signsAfter k = .ok y') :
    y'.signed = Token.minusIsSign (some k) := by
  obtain ⟨n, rfl, rfl⟩ | ⟨o, rfl, rfl⟩ | ⟨rfl, rfl⟩ | ⟨ops, outer, rfl, -, rfl⟩ := step_cases h
  · rfl
  · rfl
  · rfl
  · rfl

/-! ## All tokens -/

/-- Of tokens that are read the yard gains the operands and the operators. -/
theorem gains_foldlM (before : Option Token) (hsigned : y.signed = Token.minusIsSign before)
    (h : ts.foldlM (step Postfix.signsAfter) y = .ok y') :
    y.Gains y' (Token.operandsAfter before ts) (ts.filterMap Token.operator?) := by
  induction ts generalizing y before with
  | nil =>
    obtain rfl := Except.ok.inj h
    exact Gains.refl y
  | cons k ts ih =>
    rw [List.foldlM_cons, bind_eq_ok_iff] at h
    obtain ⟨y₁, hy, h⟩ := h
    have hstep := gains_step hy
    rw [hsigned] at hstep
    have hcons : (k :: ts).filterMap Token.operator? =
        k.operator?.toList ++ ts.filterMap Token.operator? := by
      rw [List.filterMap_cons]
      cases k.operator? <;> rfl
    rw [hcons]
    exact hstep.trans (ih (some k) (signed_step hy) h)

end Yard

/-- The integers of a postfix form are those of the tokens, in their order, and a zero for each
minus that is a sign, where it stands.  Its operators are those of the tokens, in some order. -/
theorem ofTokens_conserves {ts : List Token} {p : Postfix} (h : ofTokens ts = .ok p) :
    p.filterMap Term.int? = Token.operandsAfter none ts ∧
      (p.filterMap Term.operator?).Perm (ts.filterMap Token.operator?) := by
  obtain ⟨y, hy, houter, rfl⟩ := ofTokensWith_eq_ok_iff.1 h
  have hgains := Yard.gains_foldlM none rfl hy
  constructor
  · rw [List.filterMap_reverse, Yard.int?_release]
    exact hgains.operands
  · have hrelease := Yard.release_perm y.ops [] y.out
    have hoperators := hgains.operators
    rw [Yard.operators, houter] at hoperators
    rw [List.append_nil] at hrelease
    rw [List.filterMap_reverse]
    exact (List.reverse_perm _).trans (hrelease.trans hoperators)

/-- `2 ^ - 1 * ( - 3 ) - - +`: the minus after the power is no sign, and operators without operands
are kept too. -/
theorem ofTokens_conserves_signs :
    ∃ p, ofTokens [.int 2, .op .pow, .op .sub, .int 1, .op .mul, .lparen, .op .sub, .int 3,
      .rparen, .op .sub, .op .sub, .op .add] = .ok p ∧ p.filterMap Term.int? = [2, 1, 0, 3, 0] ∧
      (p.filterMap Term.operator?).Perm [.pow, .sub, .mul, .sub, .sub, .sub, .add] := by
  have h : ofTokens [.int 2, .op .pow, .op .sub, .int 1, .op .mul, .lparen, .op .sub, .int 3,
      .rparen, .op .sub, .op .sub, .op .add] =
      .ok [.int 2, .op .pow, .int 1, .int 0, .int 3, .op .sub, .op .mul, .op .sub, .op .sub, .int 0,
        .op .sub, .op .add] := rfl
  exact ⟨_, h, ofTokens_conserves h⟩

end Postfix

end LineCalc
