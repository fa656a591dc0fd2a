import LineCalc.Infix.Basic
import LineCalc.Postfix.Convert
import LineCalc.Proofs.Chain
import Mathlib.Data.List.TakeWhile

/-!
# The postfix form of a group

In a plain group no sign stands after an operator, and at most one stands at the start, a minus.
The conversion takes the tokens of such a group to the postorder of its tree
(`ofTokensWith_tokens`).

The yard holds the stack of `Tree.reduce` in two lists: the operators wait, and the operands are
written already (`written`).
-/

namespace LineCalc

namespace Infix

/-! ## Plain groups -/

mutual

/-- An integer, or a plain group in parentheses. -/
def Operand.Plain : Operand → Prop
  | .int _ => True
  | .name _ => False
  | .group g => g.Plain

/-- A group without names, and without other signs than a minus at its start or at the start of a
group in parentheses. -/
def Group.Plain : Group → Prop
  | .mk signs first rest => (signs = [] ∨ signs = [.minus]) ∧ first.Plain ∧ rest.Plain

/-- Plain operands, each with an operator and without signs. -/
def Rest.Plain : Rest → Prop
  | .nil => True
  | .cons _ signs operand rest => signs = [] ∧ operand.Plain ∧ rest.Plain

end

end Infix

namespace Postfix

/-! ## The stack in the yard -/

/-- The output of the operands on a stack and the last one, the latest term first. -/
def written (st : List (Operator × Tree)) (t : Tree) : Postfix :=
  t.postorder.reverse ++ st.flatMap fun e => e.2.postorder.reverse

theorem release_cons (o : Operator) (ops : List Operator) (out : Postfix) :
    Yard.release (o :: ops) out = Yard.release ops (.op o :: out) := by
  simp [Yard.release]

theorem written_cons (o : Operator) (st : List (Operator × Tree)) (l t : Tree) (out : Postfix) :
    written ((o, l) :: st) t ++ out = t.postorder.reverse ++ (written st l ++ out) := by
  simp [written]

/-- An operator with its two operands is written as a node of the tree. -/
theorem written_node (o : Operator) (st : List (Operator × Tree)) (l t : Tree) :
    .op o :: written ((o, l) :: st) t = written st (.node o l t) := by
  simp [written, Tree.postorder]

theorem release_takeWhile (p : Nat) (st : List (Operator × Tree)) (t : Tree) (out : Postfix) :
    Yard.release ((st.map Prod.fst).takeWhile (p ≤ ·.precedence)) (written st t ++ out) =
      written (Tree.reduce p st t).1 (Tree.reduce p st t).2 ++ out := by
  induction st generalizing t with
  | nil => rfl
  | cons e st ih =>
    obtain ⟨o, l⟩ := e
    rw [List.map_cons, Tree.reduce]
    by_cases hp : p ≤ o.precedence
    · rw [if_pos hp, List.takeWhile_cons, if_pos (decide_eq_true hp), release_cons,
        ← List.cons_append, written_node, ih]
    · rw [if_neg hp, List.takeWhile_cons, if_neg (by simpa using hp)]
      rfl

theorem dropWhile_waiting (p : Nat) (st : List (Operator × Tree)) (t : Tree) :
    (st.map Prod.fst).dropWhile (p ≤ ·.precedence) = (Tree.reduce p st t).1.map Prod.fst := by
  induction st generalizing t with
  | nil => rfl
  | cons e st ih =>
    obtain ⟨o, l⟩ := e
    rw [List.map_cons, Tree.reduce]
    by_cases hp : p ≤ o.precedence
    · rw [if_pos hp, List.dropWhile_cons, if_pos (decide_eq_true hp), ih]
    · rw [if_neg hp, List.dropWhile_cons, if_neg (by simpa using hp)]
      rfl

/-- At the end of a group all waiting operators are joined to their operands. -/
theorem release_written {st : List (Operator × Tree)} (h : Tree.Climbs st) (t : Tree)
    (out : Postfix) :
    Yard.release (st.map Prod.fst) (written st t ++ out) =
      (Tree.ofStack st t []).postorder.reverse ++ out := by
  have hall := release_takeWhile 0 st t out
  have hops : (st.map Prod.fst).takeWhile (0 ≤ ·.precedence) = st.map Prod.fst :=
    List.takeWhile_eq_self_iff.2 fun _ _ => rfl
  rw [hops, Tree.reduce_zero_fst, Tree.reduce_zero_snd h] at hall
  simpa [written] using hall

/-- An operator after an operand joins the waiting ones that bind at least as strongly. -/
theorem stepOperator_written (b : Bool) (o : Operator) (st : List (Operator × Tree)) (t : Tree)
    (out : Postfix) (outer : List (List Operator)) :
    Yard.stepOperator b ⟨written st t ++ out, st.map Prod.fst, outer, false⟩ o =
      ⟨written (Tree.reduce o.precedence st t).1 (Tree.reduce o.precedence st t).2 ++ out,
        o :: (Tree.reduce o.precedence st t).1.map Prod.fst, outer, b⟩ := by
  simp only [Yard.stepOperator, release_takeWhile, dropWhile_waiting o.precedence st t]
  simp

/-! ## The conversion of a plain group -/

/-- What the conversion of the tokens of a group leaves in the yard: the waiting operators complete
the postorder of the tree, and the groups around are as before. -/
structure Yields (y : Yard) (t : Tree) (out : Postfix) (outer : List (List Operator)) : Prop where
  outer : y.outer = outer
  release : Yard.release y.ops y.out = t.postorder.reverse ++ out

variable (signs : Operator → Bool) (v : Name → Int)

mutual

theorem foldlM_operand (a : Infix.Operand) (h : a.Plain) (y : Yard) (ts : List Token) :
    (a.tokens ++ ts).foldlM (Yard.step signs) y =
      ts.foldlM (Yard.step signs)
        { y with out := (a.tree v).postorder.reverse ++ y.out, signed := false } := by
  cases a with
  | int n => rfl
  | name x => cases h
  | group g =>
    obtain ⟨y', hy', houter, hrelease⟩ :=
      foldlM_group g h y.out (y.ops :: y.outer) (.rparen :: ts)
    rw [Infix.tokens_group_append, List.foldlM_cons]
    refine hy'.trans ?_
    obtain ⟨out', ops', outer', signed'⟩ := y'
    cases houter
    rw [List.foldlM_cons]
    change ts.foldlM (Yard.step signs) ⟨Yard.release ops' out', y.ops, y.outer, false⟩ = _
    rw [hrelease]
    rfl

theorem foldlM_group (g : Infix.Group) (h : g.Plain) (out : Postfix) (outer : List (List Operator))
    (ts : List Token) :
    ∃ y', (g.tokens ++ ts).foldlM (Yard.step signs) ⟨out, [], outer, true⟩ =
      ts.foldlM (Yard.step signs) y' ∧ Yields y' (g.tree v) out outer := by
  obtain ⟨ss, first, rest⟩ := g
  obtain ⟨hs, hfirst, hrest⟩ := h
  rw [Infix.tokens_mk_append]
  obtain rfl | rfl := hs
  · obtain ⟨y', hy', hyields⟩ :=
      foldlM_rest rest hrest [] .nil (first.tree v) out outer ts
    refine ⟨y', ?_, hyields⟩
    have hfold := foldlM_operand first hfirst ⟨out, [], outer, true⟩ (rest.tokens ++ ts)
    rw [written, List.flatMap_nil, List.append_nil] at hy'
    exact hfold.trans hy'
  · -- The minus subtracts from a zero that is written before the first operand.
    obtain ⟨y', hy', hyields⟩ :=
      foldlM_rest rest hrest [(.sub, .leaf 0)] (List.pairwise_singleton _ _)
        (first.tree v) out outer ts
    refine ⟨y', ?_, hyields⟩
    have hfold := foldlM_operand first hfirst ⟨.int 0 :: out, [.sub], outer, signs .sub⟩
      (rest.tokens ++ ts)
    rw [written, List.append_assoc] at hy'
    exact hfold.trans hy'

theorem foldlM_rest (r : Infix.Rest) (h : r.Plain) (st : List (Operator × Tree))
    (hst : Tree.Climbs st) (t : Tree) (out : Postfix) (outer : List (List Operator))
    (ts : List Token) :
    ∃ y', (r.tokens ++ ts).foldlM (Yard.step signs)
        ⟨written st t ++ out, st.map Prod.fst, outer, false⟩ =
      ts.foldlM (Yard.step signs) y' ∧ Yields y' (Tree.ofStack st t (r.chain v)) out outer := by
  cases r with
  | nil => exact ⟨_, rfl, rfl, release_written hst t out⟩
  | cons o ss a r =>
    obtain ⟨rfl, ha, hr⟩ := h
    have hclimbs : Tree.Climbs ((o, (Tree.reduce o.precedence st t).2) ::
        (Tree.reduce o.precedence st t).1) := .cons (hst.reduce_lt) (hst.reduce _ t)
    obtain ⟨y', hy', hyields⟩ := foldlM_rest r hr _ hclimbs (a.tree v) out outer ts
    have hlink : Infix.link o (Infix.netSign []) (a.tree v) = (o, a.tree v) := by cases o <;> rfl
    refine ⟨y', ?_, ?_⟩
    · have hfold := foldlM_operand a ha
        (Yard.stepOperator (signs o) ⟨written st t ++ out, st.map Prod.fst, outer, false⟩ o)
        (r.tokens ++ ts)
      rw [stepOperator_written] at hfold
      rw [written_cons] at hy'
      rw [Infix.tokens_cons_append, List.foldlM_cons]
      change List.foldlM _ (Yard.stepOperator _ _ o) _ = _
      rw [stepOperator_written]
      exact hfold.trans hy'
    · rw [Infix.Rest.chain, hlink, ← Tree.ofStack_reduce hst (p := o.precedence)]
      · exact hyields
      · rintro e ⟨⟩
        exact Nat.le_refl _

end

/-- The postfix form of a plain group is the postorder of its tree, after whatever operators a minus
is taken for a sign. -/
theorem ofTokensWith_tokens {g : Infix.Group} (h : g.Plain) :
    ofTokensWith signs g.tokens = .ok (g.tree v).postorder := by
  obtain ⟨y, hy, houter, hrelease⟩ := foldlM_group signs v g h [] [] []
  rw [List.append_nil] at hy
  have hy : g.tokens.foldlM (Yard.step signs) .start = .ok y := hy
  rw [List.append_nil] at hrelease
  refine ofTokensWith_eq_ok_iff.2 ⟨y, hy, houter, ?_⟩
  rw [hrelease, List.reverse_reverse]

end Postfix

end LineCalc
