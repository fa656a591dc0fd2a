import LineCalc.Proofs.Enclosing
import LineCalc.Proofs.Names
import LineCalc.Proofs.NetSigns

/-!
# What the stages make of a group

Each stage of the calculator takes the tokens of a group to the tokens of another one: values give
the group `Group.withValues`, net signs `Group.merged`, and the enclosing of signs then makes a
plain group of it, `Group.plain`.
-/

namespace LineCalc.Infix

open Token

/-! ## Values -/

/-- The group that is written like a value. -/
def valueGroup (v : Int) : Group :=
  if v < 0 then .mk [.minus] (.int v.natAbs) .nil else .mk [] (.int v) .nil

mutual

/-- An operand with groups of values in place of the names. -/
def Operand.withValues (value : Name → Int) : Operand → Operand
  | .int n => .int n
  | .name x => .group (valueGroup (value x))
  | .group g => .group (g.withValues value)

/-- A group with groups of values in place of the names. -/
def Group.withValues (value : Name → Int) : Group → Group
  | .mk signs first rest => .mk signs (first.withValues value) (rest.withValues value)

/-- Further operands with groups of values in place of the names. -/
def Rest.withValues (value : Name → Int) : Rest → Rest
  | .nil => .nil
  | .cons o signs operand rest =>
    .cons o signs (operand.withValues value) (rest.withValues value)

end

theorem tokens_valueGroup (v : Int) : (Operand.group (valueGroup v)).tokens =
    Store.valueTokens v := by
  unfold valueGroup Store.valueTokens
  split <;> rfl

theorem withValues_signTokens (value : Name → Int) (ss : List Sign) :
    withValues value (signTokens ss) = signTokens ss := by
  induction ss with
  | nil => rfl
  | cons s ss ih => exact congrArg (Token.op s.operator :: ·) ih

mutual

theorem Operand.tokens_withValues (value : Name → Int) (a : Operand) :
    (a.withValues value).tokens = Token.withValues value a.tokens := by
  cases a with
  | int n => rfl
  | name x =>
    rw [Operand.withValues, tokens_valueGroup]
    exact (List.append_nil _).symm
  | group g =>
    rw [Operand.withValues, Operand.tokens, Operand.tokens, withValues_append, withValues_cons,
      Group.tokens_withValues value g]
    rfl

theorem Group.tokens_withValues (value : Name → Int) (g : Group) :
    (g.withValues value).tokens = Token.withValues value g.tokens := by
  obtain ⟨ss, first, rest⟩ := g
  rw [Group.withValues, Group.tokens, Group.tokens, withValues_append, withValues_append,
    withValues_signTokens, Operand.tokens_withValues value first,
    Rest.tokens_withValues value rest]

theorem Rest.tokens_withValues (value : Name → Int) (r : Rest) :
    (r.withValues value).tokens = Token.withValues value r.tokens := by
  cases r with
  | nil => rfl
  | cons o ss a r =>
    rw [Rest.withValues, Rest.tokens, Rest.tokens, withValues_append, withValues_append,
      withValues_cons, withValues_signTokens, Operand.tokens_withValues value a,
      Rest.tokens_withValues value r]
    rfl

end

/-! ## Net signs -/

/-- A list of signs as one sign, if there are any. -/
def mergedSigns (ss : List Sign) : List Sign :=
  if ss = [] then [] else [netSign ss]

mutual

/-- An operand in which each run of signs is one sign. -/
def Operand.merged : Operand → Operand
  | .int n => .int n
  | .name x => .name x
  | .group g => .group g.merged

/-- A group in which each run of signs is one sign. -/
def Group.merged : Group → Group
  | .mk signs first rest => .mk (mergedSigns signs) first.merged rest.merged

/-- Further operands in which each run of signs is one sign.  The signs after a plus or a minus
between two operands belong to the same run. -/
def Rest.merged : Rest → Rest
  | .nil => .nil
  | .cons o signs operand rest =>
    match o.sign? with
    | some s => .cons (s * netSign signs).operator [] operand.merged rest.merged
    | none => .cons o (mergedSigns signs) operand.merged rest.merged

end

/-- An operand does not begin with a sign. -/
theorem sign?_head_tokens (a : Operand) (ts : List Token) :
    ∃ k ks, a.tokens ++ ts = k :: ks ∧ k.sign? = none := by
  cases a with
  | int n => exact ⟨_, _, rfl, rfl⟩
  | name x => exact ⟨_, _, rfl, rfl⟩
  | group g => exact ⟨_, _, rfl, rfl⟩

/-- The signs before an operand become their net sign. -/
theorem mergeSigns_signTokens (ss : List Sign) {ts us : List Token} (h : mergeSigns ts = us)
    (hus : ∃ k ks, us = k :: ks ∧ k.sign? = none) :
    mergeSigns (signTokens ss ++ ts) = signTokens (mergedSigns ss) ++ us := by
  obtain ⟨k, ks, rfl, hk⟩ := hus
  induction ss with
  | nil => exact h
  | cons s ss ih =>
    change mergeSigns (.op s.operator :: (signTokens ss ++ ts)) = _
    rw [mergeSigns_sign, ih]
    cases ss with
    | nil =>
      have hs : s * Sign.plus = s := s.mul_plus
      rw [mergedSigns, if_pos rfl, signTokens, List.map_nil, List.nil_append, absorb_cons s hk,
        mergedSigns, if_neg (List.cons_ne_nil _ _), netSign, List.foldr_cons, List.foldr_nil, hs]
      rfl
    | cons r ss =>
      rw [mergedSigns, if_neg (List.cons_ne_nil _ _), mergedSigns,
        if_neg (List.cons_ne_nil _ _)]
      exact absorb_sign s (netSign (r :: ss)) (k :: ks)

mutual

theorem Operand.mergeSigns_tokens (a : Operand) (ts : List Token) :
    mergeSigns (a.tokens ++ ts) = a.merged.tokens ++ mergeSigns ts := by
  cases a with
  | int n => rfl
  | name x => rfl
  | group g =>
    rw [tokens_group_append, mergeSigns_cons rfl, Group.mergeSigns_tokens g, mergeSigns_cons rfl]
    simp [Operand.merged, Operand.tokens]

theorem Group.mergeSigns_tokens (g : Group) (ts : List Token) :
    mergeSigns (g.tokens ++ ts) = g.merged.tokens ++ mergeSigns ts := by
  obtain ⟨ss, first, rest⟩ := g
  have hrest := Rest.mergeSigns_tokens rest ts
  have hfirst := Operand.mergeSigns_tokens first (rest.tokens ++ ts)
  rw [hrest] at hfirst
  rw [tokens_mk_append, mergeSigns_signTokens ss hfirst (sign?_head_tokens first.merged _)]
  simp [Group.merged, Group.tokens]

theorem Rest.mergeSigns_tokens (r : Rest) (ts : List Token) :
    mergeSigns (r.tokens ++ ts) = r.merged.tokens ++ mergeSigns ts := by
  cases r with
  | nil => rfl
  | cons o ss a r =>
    have hrest := Rest.mergeSigns_tokens r ts
    have hoperand := Operand.mergeSigns_tokens a (r.tokens ++ ts)
    rw [hrest] at hoperand
    rw [tokens_cons_append]
    cases ho : o.sign? with
    | none =>
      have hk : (Token.op o).sign? = none := ho
      rw [mergeSigns_cons hk,
        mergeSigns_signTokens ss hoperand (sign?_head_tokens a.merged _)]
      simp [Rest.merged, ho, Rest.tokens]
    | some s =>
      -- The operator is the first sign of the run before the operand.
      obtain rfl := Operator.sign?_eq_some_iff.1 ho
      have hrun := mergeSigns_signTokens (s :: ss) hoperand (sign?_head_tokens a.merged _)
      rw [mergedSigns, if_neg (List.cons_ne_nil _ _)] at hrun
      refine hrun.trans ?_
      simp [Rest.merged, ho, Rest.tokens, signTokens, netSign]

end

/-! ## Plain groups -/

/-- An operand with a sign before it: a minus makes a group of it. -/
def Operand.signed (a : Operand) : Sign → Operand
  | .plus => a
  | .minus => .group (.mk [.minus] a .nil)

/-- The signs that remain at the start of a plain group. -/
def startSigns : Sign → List Sign
  | .plus => []
  | .minus => [.minus]

mutual

/-- An operand in which all groups are plain. -/
def Operand.plain : Operand → Operand
  | .int n => .int n
  | .name x => .name x
  | .group g => .group g.plain

/-- A group without other signs than a minus at the start. -/
def Group.plain : Group → Group
  | .mk signs first rest => .mk (startSigns (netSign signs)) first.plain rest.plain

/-- Further operands without signs: those after a plus or a minus go into it, and others that make a
minus go into a group with the operand. -/
def Rest.plain : Rest → Rest
  | .nil => .nil
  | .cons o signs operand rest =>
    match o.sign? with
    | some s => .cons (s * netSign signs).operator [] operand.plain rest.plain
    | none => .cons o [] (operand.plain.signed (netSign signs)) rest.plain

end

theorem encloseTokens_mergedSigns (ss : List Sign) (a : Operand) :
    encloseTokens (mergedSigns ss) a.tokens = (a.signed (netSign ss)).tokens := by
  unfold mergedSigns
  split
  · next hss =>
    subst hss
    exact List.append_nil _
  · cases netSign ss with
    | plus => exact List.append_nil _
    | minus => simp [encloseTokens, Operand.signed, Operand.tokens, Group.tokens, Rest.tokens,
        signTokens, Sign.operator]

theorem mergedSigns_startSigns (ss : List Sign) (a : Operand) :
    (if .minus ∈ mergedSigns ss then
      Token.op .sub :: encloseTokens ((mergedSigns ss).erase .minus) a.tokens
    else a.tokens) = signTokens (startSigns (netSign ss)) ++ a.tokens := by
  unfold mergedSigns
  split
  · next hss =>
    subst hss
    rfl
  · cases netSign ss with
    | plus => rfl
    | minus => simp [encloseTokens, startSigns, signTokens, Sign.operator]

mutual

theorem Operand.enclosed_merged (a : Operand) : a.merged.enclosed = a.plain.tokens := by
  cases a with
  | int n => rfl
  | name x => rfl
  | group g =>
    rw [Operand.merged, Operand.enclosed, Group.enclosed_merged g]
    rfl

/-- With each run of signs as one sign, enclosing the signs makes a group plain. -/
theorem Group.enclosed_merged (g : Group) : g.merged.enclosed = g.plain.tokens := by
  obtain ⟨ss, first, rest⟩ := g
  rw [Group.merged, Group.enclosed, Operand.enclosed_merged first, mergedSigns_startSigns,
    Rest.enclosed_merged rest]
  rfl

theorem Rest.enclosed_merged (r : Rest) : r.merged.enclosed = r.plain.tokens := by
  cases r with
  | nil => rfl
  | cons o ss a r =>
    rw [Rest.merged, Rest.plain]
    cases o.sign? with
    | some s =>
      simp only [Rest.enclosed, Rest.tokens]
      rw [Operand.enclosed_merged a, Rest.enclosed_merged r]
      simp [encloseTokens, signTokens]
    | none =>
      simp only [Rest.enclosed, Rest.tokens]
      rw [Operand.enclosed_merged a, Rest.enclosed_merged r, encloseTokens_mergedSigns]
      simp [signTokens]

end

end LineCalc.Infix
