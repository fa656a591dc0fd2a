import LineCalc.Infix.Derivation
import LineCalc.Proofs.Conversion
import LineCalc.Tree.Postorder

/-!
# The conversion as a parser

The conversion takes every expression of the grammar by precedence to the postorder of its tree
(`ofTokensWith_of_derives`).  While an expression is read whose operators bind at least as strongly
as `p`, those that wait around it bind less strongly, and so none of them is released; what the
expression itself leaves waiting completes the postorder of its tree.

It follows that the grammar gives a plain group one tree, the tree of its chain
(`ofTokens_of_plain`).
-/

namespace LineCalc

namespace Postfix

open Infix

variable {p : Nat} {ts : List Token} {t : Tree} (signs : Operator → Bool)

/-- An operator releases the waiting ones that bind at least as strongly, down to the first that
does not. -/
theorem stepOperator_append {ops waiting : List Operator} {o : Operator}
    (hops : ∀ a ∈ ops, o.precedence ≤ a.precedence)
    (hwaiting : ∀ a ∈ waiting, a.precedence < o.precedence)
    (b signed : Bool) (out : Postfix) (outer : List (List Operator)) :
    Yard.stepOperator b ⟨out, ops ++ waiting, outer, signed⟩ o =
      ⟨if o = .sub ∧ signed then .int 0 :: Yard.release ops out else Yard.release ops out,
        o :: waiting, outer, b⟩ := by
  have htake : (ops ++ waiting).takeWhile (o.precedence ≤ ·.precedence) = ops := by
    rw [List.takeWhile_append_of_pos fun a ha => decide_eq_true (hops a ha)]
    cases waiting with
    | nil => exact List.append_nil ops
    | cons a waiting => simp [hwaiting a List.mem_cons_self]
  have hdrop : (ops ++ waiting).dropWhile (o.precedence ≤ ·.precedence) = waiting := by
    rw [List.dropWhile_append_of_pos fun a ha => decide_eq_true (hops a ha)]
    cases waiting with
    | nil => rfl
    | cons a waiting => simp [hwaiting a List.mem_cons_self]
  simp only [Yard.stepOperator, htake, hdrop]

theorem release_append_singleton (ops : List Operator) (o : Operator) (out : Postfix) :
    Yard.release (ops ++ [o]) out = .op o :: Yard.release ops out := by
  simp [Yard.release]

/-- What an expression leaves that has been read after `y`: its own operators wait before those of
`y`, and complete the postorder of its tree. -/
structure Leaves (p : Nat) (t : Tree) (y : Yard) (ops : List Operator) (out : Postfix) : Prop where
  binds : ∀ o ∈ ops, p ≤ o.precedence
  release : Yard.release ops out = t.postorder.reverse ++ y.out

/-- A right operand is read with its operator waiting before it. -/
theorem lt_of_mem_waiting {waiting : List Operator} {o : Operator}
    (h : ∀ a ∈ waiting, a.precedence < p) (hp : p ≤ o.precedence) :
    ∀ a ∈ o :: waiting, a.precedence < o.precedence + 1 := by
  intro a ha
  rcases List.mem_cons.1 ha with rfl | ha
  · exact Nat.lt_succ_self _
  · have := h a ha
    omega

/-- After the right operand, its operator is the first that waited and the last that is released. -/
theorem Leaves.node {o : Operator} {l r : Tree} {y z : Yard} {ops : List Operator} {out : Postfix}
    (h : Leaves (o.precedence + 1) r z ops out) (hz : z.out = l.postorder.reverse ++ y.out)
    (hp : p ≤ o.precedence) : Leaves p (.node o l r) y (ops ++ [o]) out where
  binds a ha := by
    rcases List.mem_append.1 ha with ha | ha
    · have := h.binds a ha
      omega
    · rw [List.mem_singleton.1 ha]
      exact hp
  release := by
    rw [release_append_singleton, h.release, hz]
    simp [Tree.postorder]

/-- An expression is read without regard to the operators that wait around it. -/
theorem foldlM_of_derives (h : Derives p ts t) (y : Yard)
    (hops : ∀ o ∈ y.ops, o.precedence < p) (hsigned : p ≤ 1 → y.signed = true) :
    ∃ ops out, Leaves p t y ops out ∧ ∀ us, (ts ++ us).foldlM (Yard.step signs) y =
      us.foldlM (Yard.step signs) ⟨out, ops ++ y.ops, y.outer, false⟩ := by
  induction h generalizing y with
  | int p n => exact ⟨[], .int n :: y.out, ⟨nofun, rfl⟩, fun us => rfl⟩
  | @group p ts t h ih =>
    obtain ⟨ops, out, hleaves, hfold⟩ :=
      ih ⟨y.out, [], y.ops :: y.outer, true⟩ nofun fun _ => rfl
    refine ⟨[], t.postorder.reverse ++ y.out, ⟨nofun, rfl⟩, fun us => ?_⟩
    rw [List.cons_append, List.cons_append, List.append_assoc, List.foldlM_cons]
    refine (hfold (.rparen :: us)).trans ?_
    rw [List.append_nil, List.foldlM_cons, ← hleaves.release]
    rfl
  | @node p o ts us l r hp _ _ ihl ihr =>
    have hpos := o.precedence_pos
    have hwaiting (a : Operator) (ha : a ∈ y.ops) : a.precedence < o.precedence :=
      Nat.lt_of_lt_of_le (hops a ha) hp
    obtain ⟨lops, lout, hl, hlfold⟩ := ihl y hwaiting fun ho => hsigned (Nat.le_trans hp ho)
    have hstep : Yard.step signs ⟨lout, lops ++ y.ops, y.outer, false⟩ (.op o) =
        .ok ⟨Yard.release lops lout, o :: y.ops, y.outer, signs o⟩ := by
      rw [Yard.step, stepOperator_append hl.binds hwaiting]
      simp
    obtain ⟨rops, rout, hr, hrfold⟩ := ihr ⟨Yard.release lops lout, o :: y.ops, y.outer, signs o⟩
      (lt_of_mem_waiting hops hp) fun ho => absurd ho (by omega)
    refine ⟨rops ++ [o], rout, hr.node hl.release hp, fun vs => ?_⟩
    rw [List.append_assoc, hlfold, List.cons_append, List.foldlM_cons, hstep, List.append_assoc]
    exact hrfold vs
  | @minus p ts t hp h ih =>
    -- The minus is the first token of its group, so nothing is released for it.
    have hwaiting (a : Operator) (ha : a ∈ y.ops) : a.precedence < Operator.sub.precedence :=
      Nat.lt_of_lt_of_le (hops a ha) hp
    have hstep : Yard.step signs y (.op .sub) =
        .ok ⟨.int 0 :: y.out, .sub :: y.ops, y.outer, signs .sub⟩ := by
      obtain ⟨out, waiting, outer, signed⟩ := y
      obtain rfl : signed = true := hsigned hp
      have hnil : ∀ a ∈ ([] : List Operator), Operator.sub.precedence ≤ a.precedence := nofun
      exact congrArg Except.ok (stepOperator_append hnil hwaiting _ true out outer)
    obtain ⟨ops, out, hleaves, hfold⟩ := ih ⟨.int 0 :: y.out, .sub :: y.ops, y.outer, signs .sub⟩
      (lt_of_mem_waiting hops hp) fun hsub => absurd hsub (by decide)
    refine ⟨ops ++ [.sub], out, hleaves.node rfl hp, fun us => ?_⟩
    rw [List.cons_append, List.foldlM_cons, hstep, List.append_assoc]
    exact hfold us

/-- The postfix form of an expression is the postorder of its tree. -/
theorem ofTokensWith_of_derives (h : Derives 0 ts t) :
    ofTokensWith signs ts = .ok t.postorder := by
  obtain ⟨ops, out, hleaves, hfold⟩ := foldlM_of_derives signs h .start nofun fun _ => rfl
  have hts := hfold []
  rw [List.append_nil] at hts
  refine ofTokensWith_eq_ok_iff.2 ⟨_, hts, rfl, ?_⟩
  change (Yard.release (ops ++ []) out).reverse = _
  rw [List.append_nil, hleaves.release]
  simp [Yard.start]

end Postfix

namespace Infix

/-! ## Plain groups -/

mutual

theorem Operand.exists_derives (a : Operand) (h : a.Plain) : ∃ t, ∀ p, Derives p a.tokens t := by
  cases a with
  | int n => exact ⟨_, fun p => .int p n⟩
  | name x => cases h
  | group g =>
    obtain ⟨t, ht⟩ := Group.exists_derives g h
    exact ⟨t, fun p => .group p ht⟩

/-- A plain group is an expression. -/
theorem Group.exists_derives (g : Group) (h : g.Plain) : ∃ t, Derives 0 g.tokens t := by
  obtain ⟨signs, first, rest⟩ := g
  obtain ⟨hsigns, hfirst, hrest⟩ := h
  obtain ⟨t, ht⟩ := Operand.exists_derives first hfirst
  rcases hsigns with rfl | rfl
  · exact Rest.exists_derives rest hrest (ht 0)
  · exact Rest.exists_derives rest hrest (.minus (Nat.zero_le _) (ht _))

theorem Rest.exists_derives (r : Rest) (h : r.Plain) {ts : List Token} {t : Tree}
    (ht : Derives 0 ts t) : ∃ t', Derives 0 (ts ++ r.tokens) t' := by
  cases r with
  | nil => exact ⟨t, by rwa [Rest.tokens, List.append_nil]⟩
  | cons o signs a r =>
    obtain ⟨rfl, ha, hr⟩ := h
    obtain ⟨u, hu⟩ := Operand.exists_derives a ha
    obtain ⟨t', ht'⟩ := ht.append (Nat.zero_le o.precedence) hu
    obtain ⟨t'', ht''⟩ := Rest.exists_derives r hr ht'
    refine ⟨t'', ?_⟩
    rwa [List.append_assoc, List.cons_append] at ht''

end

/-- The postfix form of a plain group is the postorder of the only tree that the precedence of its
operators gives it, and this is the tree of its chain. -/
theorem ofTokens_of_plain {g : Group} (h : g.Plain) (value : Name → Int) :
    Postfix.ofTokens g.tokens = .ok (g.tree value).postorder ∧
      ∀ t, Derives 0 g.tokens t ↔ t = g.tree value := by
  have hok : Postfix.ofTokens g.tokens = .ok (g.tree value).postorder :=
    Postfix.ofTokensWith_tokens _ value h
  have hunique (t : Tree) (ht : Derives 0 g.tokens t) : t = g.tree value := by
    have htree : Postfix.ofTokens g.tokens = .ok t.postorder := Postfix.ofTokensWith_of_derives _ ht
    rw [hok] at htree
    exact Tree.postorder_injective (Except.ok.inj htree).symm
  refine ⟨hok, fun t => ⟨hunique t, ?_⟩⟩
  rintro rfl
  obtain ⟨t, ht⟩ := Group.exists_derives g h
  rwa [← hunique t ht]

/-- A group with a minus at its start, two powers side by side, and a minus at the start of a group
in parentheses. -/
theorem ofTokens_of_plain_two_powers :
    Group.Plain (.mk [.minus] (.int 2) (.cons .pow [] (.int 3) (.cons .pow []
      (.group (.mk [.minus] (.int 4) .nil)) (.cons .add [] (.int (-5)) .nil)))) ∧
    Postfix.ofTokens [.op .sub, .int 2, .op .pow, .int 3, .op .pow, .lparen, .op .sub, .int 4,
        .rparen, .op .add, .int (-5)] =
      .ok [.int 0, .int 2, .int 3, .op .pow, .int 0, .int 4, .op .sub, .op .pow, .op .sub,
        .int (-5), .op .add] ∧
    ∀ t, Derives 0 [.op .sub, .int 2, .op .pow, .int 3, .op .pow, .lparen, .op .sub, .int 4,
        .rparen, .op .add, .int (-5)] t ↔
      t = .node .add (.node .sub (.leaf 0) (.node .pow (.node .pow (.leaf 2) (.leaf 3))
        (.node .sub (.leaf 0) (.leaf 4)))) (.leaf (-5)) := by
  have hplain : Group.Plain (.mk [.minus] (.int 2) (.cons .pow [] (.int 3) (.cons .pow []
      (.group (.mk [.minus] (.int 4) .nil)) (.cons .add [] (.int (-5)) .nil)))) := by
    simp [Group.Plain, Operand.Plain, Rest.Plain]
  exact ⟨hplain, ofTokens_of_plain hplain fun _ => 0⟩

end Infix

end LineCalc
