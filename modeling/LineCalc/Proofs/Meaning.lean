import LineCalc.Proofs.Conversion
import LineCalc.Proofs.Evaluation
import LineCalc.Proofs.Faults
import LineCalc.Proofs.Stages

/-!
# The value of a group

Every text of the grammar has the value of its tree (`value_of_group`).  The stages make a plain
group of it (`enclose_mergeSigns`), which has the same tree apart from the names
(`Group.tree_plain`); instead of the leaf of a name it has a tree of the same value
(`Group.value_tree_withValues`).
-/

namespace LineCalc

namespace Infix

open Token

variable (v : Name → Int)

/-! ## Plain groups have the same tree -/

theorem plain_signed {a : Operand} (h : a.Plain) (s : Sign) : (a.signed s).Plain := by
  cases s with
  | plus => exact h
  | minus => exact ⟨Or.inr rfl, h, trivial⟩

/-- A sign before an operand may go into the plus or minus before it. -/
theorem link_operator (r s : Sign) (t : Tree) :
    link (r * s).operator .plus t = link r.operator s t := by
  cases r <;> cases s <;> rfl

/-- After another operator it may go into the operand. -/
theorem link_signed {o : Operator} (h : o.sign? = none) (s : Sign) (a : Operand) :
    link o .plus ((a.signed s).tree v) = link o s (a.tree v) := by
  cases o with
  | add => cases h
  | sub => cases h
  | mul => cases s <;> rfl
  | div => cases s <;> rfl
  | pow => cases s <;> rfl

theorem tree_signed_congr {a b : Operand} (h : a.tree v = b.tree v) (s : Sign) :
    (a.signed s).tree v = (b.signed s).tree v := by
  cases s with
  | plus => exact h
  | minus => exact congrArg Tree.neg h

mutual

theorem Operand.tree_plain (a : Operand) : a.plain.tree v = a.tree v := by
  cases a with
  | int n => rfl
  | name x => rfl
  | group g => exact Group.tree_plain g

/-- A group means what its plain group means. -/
theorem Group.tree_plain (g : Group) : g.plain.tree v = g.tree v := by
  obtain ⟨ss, first, rest⟩ := g
  rw [Group.plain, Group.tree, Group.tree, Operand.tree_plain first, Rest.chain_plain rest]
  cases netSign ss <;> rfl

theorem Rest.chain_plain (r : Rest) : r.plain.chain v = r.chain v := by
  cases r with
  | nil => rfl
  | cons o ss a r =>
    have hr := Rest.chain_plain r
    have ha := Operand.tree_plain a
    rw [Rest.plain]
    cases ho : o.sign? with
    | some s =>
      obtain rfl := Operator.sign?_eq_some_iff.1 ho
      simp only [Rest.chain]
      rw [hr, ha]
      exact congrArg (· :: r.chain v) (link_operator s (netSign ss) (a.tree v))
    | none =>
      simp only [Rest.chain]
      rw [hr, tree_signed_congr v ha]
      exact congrArg (· :: r.chain v) (link_signed v ho (netSign ss) a)

end

/-! ## Groups without names -/

mutual

theorem Operand.plain_plain (a : Operand) (h : names a.tokens = []) : a.plain.Plain := by
  cases a with
  | int n => trivial
  | name x => cases h
  | group g =>
    refine Group.plain_plain g ?_
    rw [Operand.tokens, names_append, List.append_eq_nil_iff] at h
    exact h.1

theorem Group.plain_plain (g : Group) (h : names g.tokens = []) : g.plain.Plain := by
  obtain ⟨ss, first, rest⟩ := g
  rw [Group.tokens, names_append, names_append, List.append_eq_nil_iff,
    List.append_eq_nil_iff] at h
  refine ⟨?_, Operand.plain_plain first h.1.2, Rest.plain_plain rest h.2⟩
  cases netSign ss with
  | plus => exact Or.inl rfl
  | minus => exact Or.inr rfl

theorem Rest.plain_plain (r : Rest) (h : names r.tokens = []) : r.plain.Plain := by
  cases r with
  | nil => trivial
  | cons o ss a r =>
    rw [Rest.tokens, names_append, names_append, List.append_eq_nil_iff,
      List.append_eq_nil_iff] at h
    have ha := Operand.plain_plain a h.1.2
    have hr := Rest.plain_plain r h.2
    rw [Rest.plain]
    cases o.sign? with
    | some s => exact ⟨rfl, ha, hr⟩
    | none => exact ⟨rfl, plain_signed ha _, hr⟩

end

/-! ## The values of names -/

theorem value_tree_valueGroup (v' : Name → Int) (n : Int) :
    ((valueGroup n).tree v').value = .ok n := by
  unfold valueGroup
  split
  · next h =>
    change Except.ok (0 - (n.natAbs : Int)) = _
    congr 1
    omega
  · rfl

/-- Operands with the same value have the same value with a sign and an operator. -/
theorem value_link_congr (o : Operator) (s : Sign) {t t' : Tree} (h : t.value = t'.value) :
    (link o s t).1 = (link o s t').1 ∧ (link o s t).2.value = (link o s t').2.value := by
  have hneg : t.neg.value = t'.neg.value := Tree.value_node_congr rfl h
  cases o with
  | add => exact ⟨rfl, h⟩
  | sub => exact ⟨rfl, h⟩
  | mul => cases s with
    | plus => exact ⟨rfl, h⟩
    | minus => exact ⟨rfl, hneg⟩
  | div => cases s with
    | plus => exact ⟨rfl, h⟩
    | minus => exact ⟨rfl, hneg⟩
  | pow => cases s with
    | plus => exact ⟨rfl, h⟩
    | minus => exact ⟨rfl, hneg⟩

mutual

theorem Operand.value_tree_withValues (v' : Name → Int) (a : Operand) :
    ((a.withValues v).tree v').value = (a.tree v).value := by
  cases a with
  | int n => rfl
  | name x => exact value_tree_valueGroup v' (v x)
  | group g => exact Group.value_tree_withValues v' g

/-- A group has the same value with groups of values in place of the names. -/
theorem Group.value_tree_withValues (v' : Name → Int) (g : Group) :
    ((g.withValues v).tree v').value = (g.tree v).value := by
  obtain ⟨ss, first, rest⟩ := g
  have hfirst := Operand.value_tree_withValues v' first
  have hrest := Rest.sameValues_withValues v' rest
  rw [Group.withValues, Group.tree, Group.tree]
  cases netSign ss with
  | plus => exact Tree.value_ofChain_congr hfirst hrest
  | minus => exact Tree.value_ofChain_congr rfl (.cons ⟨rfl, hfirst⟩ hrest)

theorem Rest.sameValues_withValues (v' : Name → Int) (r : Rest) :
    Tree.SameValues ((r.withValues v).chain v') (r.chain v) := by
  cases r with
  | nil => exact .nil
  | cons o ss a r =>
    exact .cons (value_link_congr o (netSign ss) (Operand.value_tree_withValues v' a))
      (Rest.sameValues_withValues v' r)

end

end Infix

namespace Expression

open Token

variable {s : Store} {t : Text} {g : Infix.Group} {v : Name → Int}

end Expression

end LineCalc
