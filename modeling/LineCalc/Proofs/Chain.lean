import LineCalc.Tree
import Mathlib.Data.List.Forall2

/-!
# Chains, read from left to right

`Tree.ofChain` joins the operands of a chain level by level.  The same tree is found in one pass
over the chain, with a stack of left operands whose operators wait for the right one: an operator
first joins the waiting ones that bind at least as strongly (`reduce`), which changes nothing in the
tree of the whole chain (`ofStack_reduce`).

`value_ofChain_congr` says that the value of a chain depends on its operands through their values
only.
-/

namespace LineCalc

theorem Operator.precedence_pos (o : Operator) : 0 < o.precedence := by
  cases o <;> decide

theorem Operator.precedence_le (o : Operator) : o.precedence ≤ 3 := by
  cases o <;> decide

namespace Tree

variable {p : Nat} {o : Operator} {t u l : Tree} {r st : List (Operator × Tree)}

/-! ## One level -/

theorem joinLevel_cons_of_eq (h : o.precedence = p) :
    joinLevel p t ((o, u) :: r) = joinLevel p (node o t u) r := by
  rw [joinLevel, if_pos h]

theorem joinLevel_cons_of_ne (h : o.precedence ≠ p) :
    joinLevel p t ((o, u) :: r) = (t, (o, (joinLevel p u r).1) :: (joinLevel p u r).2) := by
  rw [joinLevel, if_neg h]

/-- A level does not reach the first operand if the first operator is of another one. -/
theorem exists_joinLevel_eq (h : ∀ e ∈ r.head?, e.1.precedence ≠ p) :
    ∃ r', (∀ t, joinLevel p t r = (t, r')) ∧ r'.head?.map Prod.fst = r.head?.map Prod.fst := by
  cases r with
  | nil => exact ⟨[], fun _ => rfl, rfl⟩
  | cons e r =>
    obtain ⟨o, u⟩ := e
    exact ⟨_, fun t => joinLevel_cons_of_ne (h (o, u) rfl), rfl⟩

/-! ## All levels -/

/-- The chain after the levels from `p` down to one have been joined. -/
def joinLevels : Nat → Tree × List (Operator × Tree) → Tree × List (Operator × Tree)
  | 0, c => c
  | p + 1, c => joinLevels p (joinLevel (p + 1) c.1 c.2)

/-- A chain with the operands of a stack before it, each with the operator after it; the last of
these operands is at the head of the stack. -/
def unstack : List (Operator × Tree) → Tree × List (Operator × Tree) →
    Tree × List (Operator × Tree)
  | [], c => c
  | (o, l) :: st, c => unstack st (l, (o, c.1) :: c.2)

theorem joinLevel_unstack {c : Tree × List (Operator × Tree)}
    (h : ∀ e ∈ st, e.1.precedence ≠ p) :
    joinLevel p (unstack st c).1 (unstack st c).2 = unstack st (joinLevel p c.1 c.2) := by
  induction st generalizing c with
  | nil => rfl
  | cons e st ih =>
    obtain ⟨o, l⟩ := e
    have ho : o.precedence ≠ p := h (o, l) List.mem_cons_self
    rw [unstack, ih fun e he => h e (List.mem_cons_of_mem _ he), joinLevel_cons_of_ne ho]
    rfl

/-- An operator may join its operands first if those on both sides do not bind more strongly, and
not as strongly on the left. -/
theorem joinLevels_node (hst : ∀ e ∈ st, e.1.precedence < o.precedence)
    (hr : ∀ e ∈ r.head?, e.1.precedence ≤ o.precedence) (hp : o.precedence ≤ p) :
    joinLevels p (unstack st (node o l t, r)) = joinLevels p (unstack st (l, (o, t) :: r)) := by
  induction p generalizing r with
  | zero => exact absurd o.precedence_pos (by omega)
  | succ p ih =>
    have hne : ∀ e ∈ st, e.1.precedence ≠ p + 1 := fun e he => by
      have := hst e he
      omega
    rw [joinLevels, joinLevels, joinLevel_unstack hne, joinLevel_unstack hne]
    by_cases ho : o.precedence = p + 1
    · rw [joinLevel_cons_of_eq ho]
    · -- The level is above `o` and what stands next to it, so the shape of the chain stays.
      obtain ⟨r', hr', hhead⟩ := exists_joinLevel_eq (p := p + 1) (r := r) fun e he => by
        have := hr e he
        omega
      rw [joinLevel_cons_of_ne ho, hr', hr']
      refine ih (fun e he => ?_) (by omega)
      have hmap : some e.1 = r.head?.map Prod.fst := by rw [← hhead, he]; rfl
      obtain ⟨e', he', heq⟩ := Option.map_eq_some_iff.1 hmap.symm
      exact heq ▸ hr e' he'

/-! ## The stack -/

/-- The tree of a chain of which a part is on the stack. -/
def ofStack (st : List (Operator × Tree)) (t : Tree) (r : List (Operator × Tree)) : Tree :=
  (joinLevels 3 (unstack st (t, r))).1

/-- The stack and the last operand after the waiting operators of precedence `p` and above have been
joined to their operands. -/
def reduce (p : Nat) : List (Operator × Tree) → Tree → List (Operator × Tree) × Tree
  | [], t => ([], t)
  | (o, l) :: st, t => if p ≤ o.precedence then reduce p st (node o l t) else ((o, l) :: st, t)

/-- The operators on the stack bind the more strongly the later they came. -/
def Climbs (st : List (Operator × Tree)) : Prop :=
  st.Pairwise fun a b => b.1.precedence < a.1.precedence

theorem Climbs.reduce (h : Climbs st) (p : Nat) (t : Tree) : Climbs (reduce p st t).1 := by
  induction st generalizing t with
  | nil => exact .nil
  | cons e st ih =>
    obtain ⟨o, l⟩ := e
    rw [Tree.reduce]
    split
    · exact ih (List.Pairwise.of_cons h) _
    · exact h

theorem Climbs.reduce_lt (h : Climbs st) {p : Nat} {t : Tree} :
    ∀ e ∈ (Tree.reduce p st t).1, e.1.precedence < p := by
  induction st generalizing t with
  | nil => exact fun e he => absurd he List.not_mem_nil
  | cons e st ih =>
    obtain ⟨o, l⟩ := e
    rw [Tree.reduce]
    split
    · exact ih (List.Pairwise.of_cons h)
    · next hp =>
      intro e he
      obtain rfl | he := List.mem_cons.1 he
      · exact Nat.lt_of_not_le hp
      · exact Nat.lt_trans (List.rel_of_pairwise_cons h he) (Nat.lt_of_not_le hp)

/-- The tree of a chain stays the same if the operators that bind at least as strongly as the next
one are joined. -/
theorem ofStack_reduce (h : Climbs st) (hr : ∀ e ∈ r.head?, e.1.precedence ≤ p) (t : Tree) :
    ofStack (reduce p st t).1 (reduce p st t).2 r = ofStack st t r := by
  induction st generalizing t with
  | nil => rfl
  | cons e st ih =>
    obtain ⟨o, l⟩ := e
    rw [reduce]
    split
    · next hp =>
      rw [ih (List.Pairwise.of_cons h), ofStack, ofStack, joinLevels_node
        (fun e he => List.rel_of_pairwise_cons h he) (fun e he => Nat.le_trans (hr e he) hp)
        o.precedence_le]
      rfl
    · rfl

theorem reduce_zero_fst (st : List (Operator × Tree)) (t : Tree) : (reduce 0 st t).1 = [] := by
  induction st generalizing t with
  | nil => rfl
  | cons e st ih => rw [reduce, if_pos (Nat.zero_le _), ih]

theorem reduce_zero_snd (h : Climbs st) (t : Tree) : (reduce 0 st t).2 = ofStack st t [] := by
  have hr := ofStack_reduce (p := 0) (r := []) h (fun e he => absurd he (by simp)) t
  rw [reduce_zero_fst] at hr
  exact hr

/-! ## Values -/

/-- Two chains with the same operators, and operands with the same values. -/
def SameValues (r r' : List (Operator × Tree)) : Prop :=
  List.Forall₂ (fun e e' => e.1 = e'.1 ∧ e.2.value = e'.2.value) r r'

theorem value_node_congr {l l' r r' : Tree} (hl : l.value = l'.value) (hr : r.value = r'.value) :
    (node o l r).value = (node o l' r').value := by
  rw [value, value, hl, hr]

theorem value_joinLevel_congr {r r' : List (Operator × Tree)} (hr : SameValues r r') {t t' : Tree}
    (ht : t.value = t'.value) :
    (joinLevel p t r).1.value = (joinLevel p t' r').1.value ∧
      SameValues (joinLevel p t r).2 (joinLevel p t' r').2 := by
  induction hr generalizing t t' with
  | nil => exact ⟨ht, .nil⟩
  | @cons e e' r r' he _ ih =>
    obtain ⟨o, u⟩ := e
    obtain ⟨o', u'⟩ := e'
    obtain ⟨rfl, hu⟩ := he
    by_cases h : o.precedence = p
    · rw [joinLevel_cons_of_eq h, joinLevel_cons_of_eq h]
      exact ih (value_node_congr ht hu)
    · rw [joinLevel_cons_of_ne h, joinLevel_cons_of_ne h]
      exact ⟨ht, .cons ⟨rfl, (ih hu).1⟩ (ih hu).2⟩

/-- The value of a chain depends on its operands through their values only. -/
theorem value_ofChain_congr {t t' : Tree} {r r' : List (Operator × Tree)}
    (ht : t.value = t'.value) (hr : SameValues r r') :
    (ofChain t r).value = (ofChain t' r').value := by
  have h3 := value_joinLevel_congr (p := 3) hr ht
  have h2 := value_joinLevel_congr (p := 2) h3.2 h3.1
  exact (value_joinLevel_congr (p := 1) h2.2 h2.1).1

end Tree

end LineCalc
