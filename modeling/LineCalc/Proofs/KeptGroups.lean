import LineCalc.Proofs.Partners
import LineCalc.Proofs.Settled
import LineCalc.Sign.Trace
import Mathlib.Data.List.ReduceOption

/-!
# Groups and enclosed signs

The parentheses that are put in before a minus do not disturb the groups that are there, unless a
minus has no operand before its group ends (`keepsGroups_iff`).  The parenthesis of such a minus is
closed by the one that ends the group, and the one that is still owed for it goes to a later operand
at the same depth (`exists_not_keepsGroups`).

The reader keeps the number of the open parentheses, and the depths at which some are owed.  Both
are read off a stack that tells for each open parenthesis whether it comes from the input
(`Enclosing.Opens`).
-/

namespace LineCalc.Sign

open Token

/-- The groups of the input are groups of the output, with the same parentheses, and what has been
put in is closed by what has been put in. -/
structure KeepsGroups (ts : List Token) : Prop where
  balanced : Bracket.closes 0 (parens (enclose ts)) = true
  input : ∀ i j, Partners ts.zipIdx i j → Partners (trace ts) (some i) (some j)
  inserted : ∀ j, Partners (trace ts) none j → j = none

/-! ## Dangling minus signs -/

/-- What stands last in the output after a token. -/
def Place.after (p : Place) (k : Token) : Place :=
  if k = .op .add ∧ p ≠ .operand then p else k.place

theorem place_next (st : Enclosing) (k : Token) : (st.next k).place = st.place.after k := by
  have hstep := st.step_next k
  generalize st.emit k = us, st.next k = st' at hstep ⊢
  cases hstep with
  | plus hp => exact (if_pos ⟨rfl, hp⟩).symm
  | minus => rfl
  | operator hadd => exact (if_neg fun ⟨hk, hp⟩ => hp (hadd (Token.op.inj hk))).symm
  | lparen => rfl
  | operand hd =>
    obtain ⟨n, rfl, -⟩ | ⟨x, rfl, -⟩ | ⟨rfl, -⟩ := Enclosing.eq_of_ending? hd <;> rfl

/-- Only operators stand before the end of the group. -/
def endsGroup : List Token → Bool
  | .op _ :: ts => endsGroup ts
  | .rparen :: _ => true
  | _ => false

/-- A minus after an operator has no operand in its group. -/
def danglesFrom : Place → List Token → Bool
  | _, [] => false
  | p, k :: ts => (p = .operator && k = .op .sub && endsGroup ts) || danglesFrom (p.after k) ts

/-! ## The open parentheses -/

/-- The depths inside the parentheses that have been put in. -/
def owedDepths : List (Option Nat) → List Nat
  | [] => []
  | none :: os => (os.length + 1) :: owedDepths os
  | some _ :: os => owedDepths os

/-- The parentheses that are open in the output, the innermost first, each with its position in the
input if it has one. -/
structure Enclosing.Opens (st : Enclosing) (os : List (Option Nat)) : Prop where
  depth : st.depth = os.length
  owed : st.owed = owedDepths os

theorem le_of_mem_owedDepths {os : List (Option Nat)} {d : Nat} (h : d ∈ owedDepths os) :
    d ≤ os.length := by
  induction os with
  | nil => cases h
  | cons o os ih =>
    rw [List.length_cons]
    cases o with
    | none =>
      rcases List.mem_cons.1 h with rfl | h
      · exact Nat.le_refl _
      · exact Nat.le_succ_of_le (ih h)
    | some i => exact Nat.le_succ_of_le (ih h)

/-- What an operand completes are the innermost parentheses that have been put in. -/
theorem due_owedDepths (os : List (Option Nat)) :
    Enclosing.due os.length (owedDepths os) = (os.takeWhile Option.isNone).length := by
  induction os with
  | nil => rfl
  | cons o os ih =>
    cases o with
    | none => exact (if_pos rfl).trans (congrArg (· + 1) ih)
    | some i =>
      rw [owedDepths]
      cases hos : owedDepths os with
      | nil => rfl
      | cons d ds =>
        have hd : d ≤ os.length := le_of_mem_owedDepths (hos ▸ List.mem_cons_self)
        have hne : d ≠ (some i :: os).length := by
          rw [List.length_cons]
          omega
        exact if_neg hne

theorem drop_owedDepths (os : List (Option Nat)) :
    (owedDepths os).drop (os.takeWhile Option.isNone).length =
      owedDepths (os.dropWhile Option.isNone) := by
  induction os with
  | nil => rfl
  | cons o os ih =>
    cases o with
    | none => exact ih
    | some i => rfl

theorem length_dropWhile_isNone (os : List (Option Nat)) :
    (os.dropWhile Option.isNone).length = os.length - (os.takeWhile Option.isNone).length := by
  have hlength := congrArg List.length
    (List.takeWhile_append_dropWhile (p := Option.isNone) (l := os))
  rw [List.length_append] at hlength
  omega

/-- After an operand, and what it completes, the innermost open parenthesis is one of the input. -/
theorem Enclosing.opens_afterOperand {st : Enclosing} {os : List (Option Nat)}
    (h : st.owed = owedDepths os) :
    (st.afterOperand os.length).Opens (os.dropWhile Option.isNone) where
  depth := by
    rw [afterOperand, h, due_owedDepths, length_dropWhile_isNone]
  owed := by
    rw [afterOperand, h, due_owedDepths, drop_owedDepths]

/-! ## Without dangling minus signs -/

section

variable {st : Enclosing} {os : List (Option Nat)} {k : Token} {ts : List Token} {i : Nat}
  {us : List (Token × Option Nat)} {ks : List (Token × Nat)}

/-- The pairs in which a parenthesis of the input occurs. -/
def original (ps : List (Option Nat × Option Nat)) : List (Option Nat × Option Nat) :=
  ps.filter (· ≠ (none, none))

/-- What is written pairs the parentheses of the input as they are paired there, and none of them
with one that has been put in. -/
def SamePairs (os : List (Option Nat)) (us : List (Token × Option Nat))
    (ks : List (Token × Nat)) : Prop :=
  original (pairs os us) = (pairs os.reduceOption ks).map (Prod.map some some)

theorem SamePairs.cons_of_ne (hk : k.paren? = none) (h : SamePairs os us ks) :
    SamePairs os ((k, some i) :: us) ((k, i) :: ks) := by
  rw [SamePairs, pairs_cons_of_ne hk, pairs_cons_of_ne hk]
  exact h

theorem SamePairs.cons_rparen {j : Nat} (h : SamePairs os us ks) :
    SamePairs (some j :: os) ((.rparen, some i) :: us) ((.rparen, i) :: ks) :=
  congrArg ((some j, some i) :: ·) h

theorem reduceOption_dropWhile (os : List (Option Nat)) :
    (os.dropWhile Option.isNone).reduceOption = os.reduceOption := by
  induction os with
  | nil => rfl
  | cons o os ih =>
    cases o with
    | none => exact ih
    | some i => rfl

/-- What an operand completes are pairs of parentheses that have been put in. -/
theorem SamePairs.closing (hst : st.owed = owedDepths os)
    (h : SamePairs (os.dropWhile Option.isNone) us ks) :
    SamePairs os ((st.closing os.length).map (·, none) ++ us) ks := by
  rw [SamePairs, reduceOption_dropWhile] at h
  rw [SamePairs, ← h, Enclosing.closing, hst, due_owedDepths]
  clear h hst
  induction os with
  | nil => rfl
  | cons o os ih =>
    cases o with
    | none => exact ih
    | some i => rfl

/-- At the end everything that is open has been put in, and is closed. -/
theorem samePairs_end (h : os.reduceOption = []) :
    SamePairs os ((List.replicate (owedDepths os).length .rparen).map (·, none)) [] := by
  induction os with
  | nil => rfl
  | cons o os ih =>
    cases o with
    | none => exact ih h
    | some i => cases h

theorem danglesFrom_cons {p : Place} (h : danglesFrom p (k :: ts) = false) :
    (p = .operator → k = .op .sub → endsGroup ts = false) ∧ danglesFrom (p.after k) ts = false := by
  rw [danglesFrom, Bool.or_eq_false_iff] at h
  refine ⟨fun hp hk => ?_, h.2⟩
  simpa [hp, hk] using h.1

/-- The tokens that are read next close the groups of the input that are open, and each minus that
waits for an operand, or comes among them, has it in its group. -/
structure Enclosing.Completed (st : Enclosing) (os : List (Option Nat)) (ts : List Token) :
    Prop where
  opens : st.Opens os
  closes : Bracket.closes os.reduceOption.length (parens ts) = true
  waits : os.head? = some none → st.place = .operator ∧ endsGroup ts = false
  dangles : danglesFrom st.place ts = false

namespace Enclosing.Completed

theorem dangles_next (h : st.Completed os (k :: ts)) : danglesFrom (st.next k).place ts = false := by
  rw [place_next]
  exact (danglesFrom_cons h.dangles).2

/-- After an operand no minus waits for one. -/
theorem afterOperand (howed : st.owed = owedDepths os)
    (hcloses : Bracket.closes os.reduceOption.length (parens ts) = true)
    (hdangles : danglesFrom .operand ts = false) :
    (st.afterOperand os.length).Completed (os.dropWhile Option.isNone) ts where
  opens := opens_afterOperand howed
  closes := by rwa [reduceOption_dropWhile]
  waits htop := by
    have hnot := List.head?_dropWhile_not Option.isNone os
    rw [htop] at hnot
    cases hnot
  dangles := hdangles

/-- After another operator a minus waits as before. -/
theorem afterOperator {o : Operator} (h : st.Completed os (.op o :: ts))
    (hdangles : danglesFrom .operator ts = false) :
    Completed { st with place := .operator } os ts where
  opens := ⟨h.opens.depth, h.opens.owed⟩
  closes := h.closes
  waits htop := ⟨rfl, (h.waits htop).2⟩
  dangles := hdangles

/-- A minus that is put in parentheses waits for its operand. -/
theorem afterMinus (h : st.Completed os (.op .sub :: ts)) (hp : st.place = .operator) :
    Completed ⟨.operator, st.depth + 1, (st.depth + 1) :: st.owed⟩ (none :: os) ts where
  opens := by
    rw [h.opens.depth, h.opens.owed]
    exact ⟨rfl, rfl⟩
  closes := h.closes
  waits _ := ⟨rfl, (danglesFrom_cons h.dangles).1 hp rfl⟩
  dangles := by
    have hnext := h.dangles_next
    rwa [next, if_pos hp] at hnext

theorem afterLparen (h : st.Completed os (.lparen :: ts)) (i : Nat) :
    (st.next .lparen).Completed (some i :: os) ts where
  opens := ⟨congrArg (· + 1) h.opens.depth, h.opens.owed⟩
  closes := h.closes
  waits := nofun
  dangles := h.dangles_next

/-- A parenthesis of the input closes one of the input. -/
theorem exists_open (h : st.Completed os (.rparen :: ts)) :
    ∃ j os', os = some j :: os' ∧ Bracket.closes os'.reduceOption.length (parens ts) = true := by
  have hcloses := h.closes
  rw [closes_parens_cons] at hcloses
  simp only [Bool.and_eq_true, bne_iff_ne, ne_eq] at hcloses
  rcases os with _ | ⟨_ | j, os⟩
  · exact absurd rfl hcloses.1
  · exact absurd (h.waits rfl).2 Bool.noConfusion
  · exact ⟨j, os, rfl, hcloses.2⟩

/-- One token, and what is written for it, leave the parentheses of the input paired as they are
there. -/
theorem step (h : st.Completed os (k :: ts)) (i : Nat) :
    ∃ os', (st.next k).Completed os' ts ∧ ∀ us ks, SamePairs os' us ks →
      SamePairs os (mark i k (st.emit k) ++ us) ((k, i) :: ks) := by
  have hdangles := h.dangles_next
  have hstep := st.step_next k
  generalize st.emit k = vs, st.next k = st' at hstep hdangles ⊢
  cases hstep with
  | plus => exact ⟨os, ⟨h.opens, h.closes, h.waits, hdangles⟩, fun us ks hus => hus⟩
  | minus hp => exact ⟨none :: os, h.afterMinus hp, fun us ks hus => hus⟩
  | operator =>
    rw [mark_cons_self]
    exact ⟨os, h.afterOperator hdangles, fun us ks hus => hus.cons_of_ne rfl⟩
  | lparen => exact ⟨_, h.afterLparen i, fun us ks hus => hus⟩
  | operand hd =>
    rw [mark_cons_self]
    obtain ⟨n, rfl, rfl⟩ | ⟨x, rfl, rfl⟩ | ⟨rfl, rfl⟩ := eq_of_ending? hd
    · rw [h.opens.depth]
      exact ⟨_, afterOperand h.opens.owed h.closes hdangles,
        fun us ks hus => (hus.closing h.opens.owed).cons_of_ne rfl⟩
    · rw [h.opens.depth]
      exact ⟨_, afterOperand h.opens.owed h.closes hdangles,
        fun us ks hus => (hus.closing h.opens.owed).cons_of_ne rfl⟩
    · obtain ⟨j, os, rfl, hcloses⟩ := h.exists_open
      have hdepth : st.depth - 1 = os.length := by
        rw [h.opens.depth, List.length_cons]
        rfl
      have howed : st.owed = owedDepths os := h.opens.owed
      rw [hdepth]
      exact ⟨_, afterOperand howed hcloses hdangles,
        fun us ks hus => (hus.closing howed).cons_rparen⟩

/-- If no minus dangles, the parentheses of the input are paired as in the input, and no other pairs
have one of them. -/
theorem samePairs_traceFrom (h : st.Completed os ts) (i : Nat) :
    SamePairs os (traceFrom st i ts) (ts.zipIdx i) := by
  induction ts generalizing st os i with
  | nil =>
    rw [traceFrom, h.opens.owed]
    exact samePairs_end (List.eq_nil_of_length_eq_zero (of_decide_eq_true h.closes))
  | cons k ts ih =>
    obtain ⟨os', hnext, hstep⟩ := h.step i
    exact hstep _ _ (ih hnext (i + 1))

end Enclosing.Completed

end

/-! ## With dangling minus signs -/

/-- If the innermost open parenthesis has been put in and the group ends, then the end of the group
closes one that has been put in. -/
theorem exists_pair_of_endsGroup {ts : List Token} (st : Enclosing) (hp : st.place = .operator)
    (h : endsGroup ts = true) (os : List (Option Nat)) (i : Nat) :
    ∃ j, (none, some j) ∈ pairs (none :: os) (traceFrom st i ts) := by
  induction ts generalizing st os i with
  | nil => cases h
  | cons k ts ih =>
    cases k with
    | op o =>
      cases o with
      | add =>
        have hoperand : st.place ≠ .operand := by
          rw [hp]
          decide
        rw [traceFrom, Enclosing.emit, if_neg hoperand, Enclosing.next, if_neg hoperand]
        exact ih st hp h os (i + 1)
      | sub =>
        rw [traceFrom, Enclosing.emit, if_pos hp, Enclosing.next, if_pos hp]
        exact ih _ rfl h (none :: os) (i + 1)
      | mul => exact ih { st with place := .operator } rfl h os (i + 1)
      | div => exact ih { st with place := .operator } rfl h os (i + 1)
      | pow => exact ih { st with place := .operator } rfl h os (i + 1)
    | rparen => exact ⟨i, List.mem_cons_self⟩
    | int n => cases h
    | name x => cases h
    | lparen => cases h

theorem exists_pair_of_danglesFrom {ts : List Token} (st : Enclosing)
    (h : danglesFrom st.place ts = true) (os : List (Option Nat)) (i : Nat) :
    ∃ j, (none, some j) ∈ pairs os (traceFrom st i ts) := by
  induction ts generalizing st os i with
  | nil => cases h
  | cons k ts ih =>
    rw [danglesFrom, Bool.or_eq_true] at h
    rcases h with h | h
    · simp only [Bool.and_eq_true, decide_eq_true_eq] at h
      obtain ⟨⟨hp, rfl⟩, hends⟩ := h
      rw [traceFrom, Enclosing.emit, if_pos hp, Enclosing.next, if_pos hp]
      exact exists_pair_of_endsGroup _ rfl hends os (i + 1)
    · rw [← place_next] at h
      obtain ⟨os', hos'⟩ := exists_pairs_append os (mark i k (st.emit k))
      obtain ⟨j, hj⟩ := ih _ h os' (i + 1)
      exact ⟨j, hos' _ hj⟩

/-- The groups of balanced tokens stay as they are exactly if each minus after an operator has an
operand before its group ends. -/
theorem keepsGroups_iff {ts : List Token} (h : Bracket.closes 0 (parens ts) = true) :
    KeepsGroups ts ↔ danglesFrom .opening ts = false := by
  constructor
  · intro hkeeps
    by_contra hdangles
    obtain ⟨j, hj⟩ := exists_pair_of_danglesFrom .start (eq_true_of_ne_false hdangles) [] 0
    cases hkeeps.inserted (some j) (partners_iff_mem_pairs.2 hj)
  · intro hdangles
    have hstart : Enclosing.start.Completed [] ts := ⟨⟨rfl, rfl⟩, h, nofun, hdangles⟩
    have hpairs : original (pairs [] (trace ts)) =
        (pairs [] ts.zipIdx).map (Prod.map some some) := hstart.samePairs_traceFrom 0
    refine ⟨closes_encloseFrom .start rfl h, fun i j hij => ?_, fun j hj => ?_⟩
    · rw [partners_iff_mem_pairs] at hij ⊢
      have hmem : (some i, some j) ∈ original (pairs [] (trace ts)) := by
        rw [hpairs]
        exact List.mem_map_of_mem hij
      exact List.mem_of_mem_filter hmem
    · rw [partners_iff_mem_pairs] at hj
      by_contra hne
      have hmem : (none, j) ∈ original (pairs [] (trace ts)) :=
        List.mem_filter.2 ⟨hj, by simpa using hne⟩
      rw [hpairs] at hmem
      obtain ⟨p, -, hp⟩ := List.mem_map.1 hmem
      cases hp

/-- A minus before a group, another one before its last operand, and one at the end of all. -/
theorem keepsGroups_of_nested_minus :
    Bracket.closes 0 (parens [.int 2, .op .mul, .op .sub, .lparen, .int 3, .op .pow, .op .sub,
      .int 4, .rparen, .op .sub, .op .sub]) = true ∧
    danglesFrom .opening [.int 2, .op .mul, .op .sub, .lparen, .int 3, .op .pow, .op .sub,
      .int 4, .rparen, .op .sub, .op .sub] = false ∧
    KeepsGroups [.int 2, .op .mul, .op .sub, .lparen, .int 3, .op .pow, .op .sub, .int 4, .rparen,
      .op .sub, .op .sub] :=
  ⟨by decide, by decide, (keepsGroups_iff (by decide)).2 (by decide)⟩

/-- In `( 2 * - ) * ( 3 )` the minus has no operand.  The parenthesis put in before it is closed by
the one after it, and the group `( 3 )` by the one that was owed. -/
theorem exists_not_keepsGroups :
    Bracket.closes 0 (parens [.lparen, .int 2, .op .mul, .op .sub, .rparen, .op .mul, .lparen,
      .int 3, .rparen]) = true ∧
    enclose [.lparen, .int 2, .op .mul, .op .sub, .rparen, .op .mul, .lparen, .int 3, .rparen] =
      [.lparen, .int 2, .op .mul, .lparen, .op .sub, .rparen, .op .mul, .lparen, .int 3, .rparen,
        .rparen] ∧
    Partners (trace [.lparen, .int 2, .op .mul, .op .sub, .rparen, .op .mul, .lparen, .int 3,
      .rparen]) none (some 4) ∧
    Partners (trace [.lparen, .int 2, .op .mul, .op .sub, .rparen, .op .mul, .lparen, .int 3,
      .rparen]) (some 6) none ∧
    ¬ ∀ ts, Bracket.closes 0 (parens ts) = true → KeepsGroups ts := by
  have hminus : Partners (trace [.lparen, .int 2, .op .mul, .op .sub, .rparen, .op .mul, .lparen,
      .int 3, .rparen]) none (some 4) := partners_iff_mem_pairs.2 (by decide)
  have hgroup : Partners (trace [.lparen, .int 2, .op .mul, .op .sub, .rparen, .op .mul, .lparen,
      .int 3, .rparen]) (some 6) none := partners_iff_mem_pairs.2 (by decide)
  refine ⟨by decide, by decide, hminus, hgroup, fun h => ?_⟩
  cases (h _ (by decide)).inserted (some 4) hminus

end LineCalc.Sign
