import LineCalc.Infix.Basic
import LineCalc.Sign.Enclose

/-!
# The signs of a group

`Sign.enclose` writes the tokens of a group as `Group.enclosed` says (`encloseFrom_group`).  Inside
a group all that is owed is owed further out; the minus signs before an operand are owed one
parenthesis each, at the depths they have opened (`minusDepths`), and all of these are due when the
operand ends.
-/

namespace LineCalc.Sign

open Infix

/-! ## What the signs of an operand owe -/

/-- The depths at which parentheses are owed for `n` minus signs at depth `d`, the innermost
first. -/
def minusDepths (d : Nat) : Nat → List Nat
  | 0 => []
  | n + 1 => (d + n + 1) :: minusDepths d n

theorem le_of_mem_minusDepths {d n e : Nat} (h : e ∈ minusDepths d n) : e ≤ d + n := by
  induction n with
  | zero => cases h
  | succ n ih =>
    obtain rfl | h := List.mem_cons.1 h
    · exact Nat.le_refl _
    · have := ih h
      omega

variable {d : Nat} {owed : List Nat} {ts : List Token}

theorem due_minusDepths (h : ∀ e ∈ owed, e < d) (n : Nat) :
    Enclosing.due (d + n) (minusDepths d n ++ owed) = n := by
  induction n with
  | zero =>
    cases owed with
    | nil => rfl
    | cons e owed => exact if_neg (Nat.ne_of_lt (h e List.mem_cons_self))
  | succ n ih => exact (if_pos rfl).trans (congrArg (· + 1) ih)

theorem length_minusDepths (d n : Nat) : (minusDepths d n).length = n := by
  induction n with
  | zero => rfl
  | succ n ih => exact congrArg (· + 1) ih

/-- An operand completes the parentheses of its own signs, and no others. -/
theorem afterOperand_minusDepths (h : ∀ e ∈ owed, e < d) (p : Place) (e n : Nat) :
    Enclosing.afterOperand ⟨p, e, minusDepths d n ++ owed⟩ (d + n) = ⟨.operand, d, owed⟩ := by
  rw [Enclosing.afterOperand, due_minusDepths h, Nat.add_sub_cancel]
  congr
  rw [List.drop_left' (length_minusDepths d n)]

theorem closing_minusDepths (h : ∀ e ∈ owed, e < d) (p : Place) (e n : Nat) :
    Enclosing.closing ⟨p, e, minusDepths d n ++ owed⟩ (d + n) = List.replicate n .rparen := by
  rw [Enclosing.closing, due_minusDepths h]

/-! ## Signs -/

/-- After an operator each minus opens a parenthesis, and a plus is dropped. -/
theorem encloseFrom_signs (d : Nat) (owed : List Nat) (ss : List Sign) (n : Nat)
    (ts : List Token) :
    encloseFrom ⟨.operator, d + n, minusDepths d n ++ owed⟩ (signTokens ss ++ ts) =
      (List.replicate (ss.count .minus) [.lparen, .op .sub]).flatten ++
        encloseFrom ⟨.operator, d + (n + ss.count .minus),
          minusDepths d (n + ss.count .minus) ++ owed⟩ ts := by
  induction ss generalizing n with
  | nil => rfl
  | cons s ss ih =>
    cases s with
    | plus => exact ih n
    | minus =>
      have hc : n + (Sign.minus :: ss).count .minus = n + 1 + ss.count .minus := by
        rw [List.count_cons_self]
        omega
      rw [hc, List.count_cons_self, List.replicate_succ, List.flatten_cons, List.append_assoc,
        ← ih (n + 1)]
      rfl

/-- At the start of a group the first minus stays, and the others open parentheses. -/
theorem encloseFrom_startSigns (ss : List Sign) :
    encloseFrom ⟨.opening, d, owed⟩ (signTokens ss ++ ts) =
      if .minus ∈ ss then
        .op .sub ::
          ((List.replicate ((ss.erase .minus).count .minus) [.lparen, .op .sub]).flatten ++
          encloseFrom ⟨.operator, d + (ss.erase .minus).count .minus,
            minusDepths d ((ss.erase .minus).count .minus) ++ owed⟩ ts)
      else encloseFrom ⟨.opening, d, owed⟩ ts := by
  induction ss with
  | nil => rfl
  | cons s ss ih =>
    cases s with
    | plus =>
      have hmem : Sign.minus ∈ Sign.plus :: ss ↔ Sign.minus ∈ ss := by simp
      have herase : ((Sign.plus :: ss).erase .minus).count .minus =
          (ss.erase .minus).count .minus := by
        rw [List.erase_cons_tail (by decide), List.count_cons_of_ne (by decide)]
      rw [herase]
      simp only [hmem]
      exact ih
    | minus =>
      rw [if_pos List.mem_cons_self, List.erase_cons_head]
      have hs := encloseFrom_signs d owed ss 0 ts
      rw [Nat.zero_add] at hs
      exact congrArg (Token.op .sub :: ·) hs

/-! ## Groups -/

mutual

/-- An operand is followed by the parentheses of its signs. -/
theorem encloseFrom_operand {d : Nat} {owed : List Nat} (a : Operand) (h : ∀ e ∈ owed, e < d)
    (p : Place) (n : Nat) (ts : List Token) :
    encloseFrom ⟨p, d + n, minusDepths d n ++ owed⟩ (a.tokens ++ ts) =
      a.enclosed ++ List.replicate n .rparen ++ encloseFrom ⟨.operand, d, owed⟩ ts := by
  cases a with
  | int m =>
    rw [Operand.tokens, List.singleton_append, encloseFrom, Enclosing.emit, Enclosing.next,
      closing_minusDepths h, afterOperand_minusDepths h]
    rfl
  | name x =>
    rw [Operand.tokens, List.singleton_append, encloseFrom, Enclosing.emit, Enclosing.next,
      closing_minusDepths h, afterOperand_minusDepths h]
    rfl
  | group g =>
    have hinner : ∀ e ∈ minusDepths d n ++ owed, e < d + n + 1 := by
      intro e he
      obtain he | he := List.mem_append.1 he
      · exact Nat.lt_succ_of_le (le_of_mem_minusDepths he)
      · have := h e he
        omega
    have hg := encloseFrom_group g hinner (.rparen :: ts)
    rw [encloseFrom, Enclosing.emit, Enclosing.next, Nat.add_sub_cancel, closing_minusDepths h,
      afterOperand_minusDepths h] at hg
    rw [tokens_group_append, encloseFrom]
    refine (congrArg (Token.lparen :: ·) hg).trans ?_
    simp [Operand.enclosed]

/-- A group is written without signs after operators. -/
theorem encloseFrom_group {d : Nat} {owed : List Nat} (g : Group) (h : ∀ e ∈ owed, e < d)
    (ts : List Token) :
    encloseFrom ⟨.opening, d, owed⟩ (g.tokens ++ ts) =
      g.enclosed ++ encloseFrom ⟨.operand, d, owed⟩ ts := by
  obtain ⟨ss, first, rest⟩ := g
  rw [tokens_mk_append, encloseFrom_startSigns, Group.enclosed]
  split
  · rw [encloseFrom_operand first h, encloseFrom_rest rest h]
    simp [encloseTokens]
  · have hfirst := encloseFrom_operand first h .opening 0 (rest.tokens ++ ts)
    rw [encloseFrom_rest rest h] at hfirst
    exact hfirst.trans (by simp)

theorem encloseFrom_rest {d : Nat} {owed : List Nat} (r : Rest) (h : ∀ e ∈ owed, e < d)
    (ts : List Token) :
    encloseFrom ⟨.operand, d, owed⟩ (r.tokens ++ ts) =
      r.enclosed ++ encloseFrom ⟨.operand, d, owed⟩ ts := by
  cases r with
  | nil => rfl
  | cons o ss a r =>
    have hop (us : List Token) : encloseFrom ⟨.operand, d, owed⟩ (.op o :: us) =
        .op o :: encloseFrom ⟨.operator, d, owed⟩ us := by
      cases o <;> rfl
    have hs := encloseFrom_signs d owed ss 0 (a.tokens ++ (r.tokens ++ ts))
    rw [Nat.zero_add, encloseFrom_operand a h, encloseFrom_rest r h] at hs
    rw [tokens_cons_append, hop]
    refine (congrArg (Token.op o :: ·) hs).trans ?_
    simp [Rest.enclosed, encloseTokens]

end

/-- The signs of a group are put in parentheses with the operands that they stand before, each run
with its own operand, however deep the groups are nested. -/
theorem enclose_tokens (g : Group) : enclose g.tokens = g.enclosed := by
  have howed : ∀ e ∈ ([] : List Nat), e < 0 := nofun
  have hgroup := encloseFrom_group g howed []
  rw [List.append_nil] at hgroup
  exact hgroup.trans (List.append_nil _)

end LineCalc.Sign
