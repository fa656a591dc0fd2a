import LineCalc.Proofs.Reading
import LineCalc.Sign.Step

/-!
# Parentheses among tokens

The tokens of a text have its parentheses (`parens_of_rendering`).  No later stage unbalances them:
the net signs leave them alone (`parens_mergeSigns`), values bring their own in pairs
(`closes_withValues`), and what is opened before a minus is closed after its operand
(`closes_encloseFrom`).  The tokens of a group are balanced (`Group.closes_tokens`).
-/

namespace LineCalc

namespace Token

/-- The parenthesis that the token is. -/
def paren? : Token → Option Char
  | lparen => some '('
  | rparen => some ')'
  | _ => none

/-- The parentheses among tokens, in order. -/
def parens (ks : List Token) : Text := ks.filterMap paren?

theorem parens_cons (k : Token) (ks : List Token) :
    parens (k :: ks) = k.paren?.toList ++ parens ks := by
  cases k <;> rfl

theorem parens_append (ks ls : List Token) : parens (ks ++ ls) = parens ks ++ parens ls :=
  List.filterMap_append

variable {gap : Char → Bool} {ks : List Token} {t : Text}

theorem parens_of_blank {w : Text} (hw : ∀ c ∈ w, Text.isBlank c = true) :
    Bracket.parens w = [] := by
  refine List.filter_eq_nil_iff.2 fun c hc hp => ?_
  have hb := hw c hc
  simp only [Bool.or_eq_true, decide_eq_true_eq] at hp
  obtain rfl | rfl := hp <;> cases hb

theorem Spells.parens {k : Token} {u : Text} (h : Spells k u) :
    Bracket.parens u = k.paren?.toList := by
  have hnone {u : Text} (hu : '(' ∉ u ∧ ')' ∉ u) : Bracket.parens u = [] := by
    refine List.filter_eq_nil_iff.2 fun c hc hp => ?_
    simp only [Bool.or_eq_true, decide_eq_true_eq] at hp
    obtain rfl | rfl := hp
    · exact hu.1 hc
    · exact hu.2 hc
  cases h with
  | int h =>
    have hd := (Text.isNumeral_iff.1 h).2
    exact hnone ⟨fun hc => absurd (hd _ hc) (by decide), fun hc => absurd (hd _ hc) (by decide)⟩
  | name h =>
    have ha := (Text.isName_iff.1 h).2
    exact hnone ⟨fun hc => absurd (ha _ hc) (by decide), fun hc => absurd (ha _ hc) (by decide)⟩
  | op o => cases o <;> rfl
  | lparen => rfl
  | rparen => rfl

/-- The parentheses of a text are those of the tokens that it spells. -/
theorem parens_of_rendering (hgap : ∀ c, gap c = true → Text.isBlank c = true)
    (h : Rendering gap ks t) : Bracket.parens t = parens ks := by
  induction h with
  | nil hw => exact parens_of_blank (List.all_eq_true.1 hw)
  | @cons w u t k ks hw hu apart ht ih =>
    have hw' := parens_of_blank fun c hc => hgap c (List.all_eq_true.1 hw c hc)
    rw [Bracket.parens] at hw' ih ⊢
    rw [List.filter_append, List.filter_append, hw', ih, List.nil_append, parens_cons]
    exact congrArg (· ++ parens ks) hu.parens

/-- The parentheses of a text are balanced if those of its tokens are. -/
theorem dyck_iff_closes (h : Rendering Text.isBlank ks t) :
    Bracket.Dyck (Bracket.parens t) ↔ Bracket.closes 0 (parens ks) = true := by
  rw [← parens_of_rendering (fun _ h => h) h, Bracket.closes_parens]
  exact Bracket.balanced_iff.symm

theorem parens_absorb (s : Sign) (ks : List Token) : parens (absorb s ks) = parens ks := by
  cases ks with
  | nil => rfl
  | cons k ks =>
    cases hk : k.sign? with
    | none => rw [absorb_cons s hk]; rfl
    | some r =>
      obtain rfl := sign?_eq_some_iff.1 hk
      rw [absorb_sign]
      rfl

theorem parens_mergeSigns (ks : List Token) : parens (mergeSigns ks) = parens ks := by
  induction ks with
  | nil => rfl
  | cons k ks ih =>
    cases hk : k.sign? with
    | none => rw [mergeSigns_cons hk, parens_cons, parens_cons, ih]
    | some s =>
      obtain rfl := sign?_eq_some_iff.1 hk
      rw [mergeSigns_sign, parens_absorb, ih]
      rfl

theorem closes_parens_cons (k : Token) (ks : List Token) (d : Nat) :
    Bracket.closes d (parens (k :: ks)) =
      match k with
      | lparen => Bracket.closes (d + 1) (parens ks)
      | rparen => d != 0 && Bracket.closes (d - 1) (parens ks)
      | _ => Bracket.closes d (parens ks) := by
  cases k with
  | rparen => cases d <;> rfl
  | _ => rfl

/-- Values bring their own parentheses in pairs. -/
theorem closes_withValues (value : Name → Int) (ks : List Token) (d : Nat) :
    Bracket.closes d (parens (withValues value ks)) = Bracket.closes d (parens ks) := by
  induction ks generalizing d with
  | nil => rfl
  | cons k ks ih =>
    have hvalue (v : Int) (ls : List Token) :
        Bracket.closes d (parens (Store.valueTokens v ++ ls)) = Bracket.closes d (parens ls) := by
      unfold Store.valueTokens
      split <;> rfl
    rw [withValues_cons]
    cases k with
    | name x => exact (hvalue (value x) _).trans (ih d)
    | int n => exact ih d
    | op o => exact ih d
    | lparen => exact ih (d + 1)
    | rparen =>
      cases d with
      | zero => rfl
      | succ d => exact ih d

theorem closes_rparens (n d : Nat) (ks : List Token) :
    Bracket.closes (d + n) (parens (List.replicate n rparen ++ ks)) =
      Bracket.closes d (parens ks) := by
  induction n with
  | zero => rfl
  | succ n ih => exact ih

end Token

namespace Sign

open Token

namespace Enclosing

theorem due_le (d : Nat) (owed : List Nat) : due d owed ≤ owed.length := by
  induction owed generalizing d with
  | nil => exact Nat.le_refl 0
  | cons o os ih =>
    rw [due, List.length_cons]
    split
    · exact Nat.succ_le_succ (ih (d - 1))
    · exact Nat.zero_le _

/-- An operand leaves as many parentheses open inside as it leaves owed. -/
theorem depth_afterOperand {st : Enclosing} {n d : Nat} (h : d = n + st.owed.length) :
    (st.afterOperand d).depth = n + (st.afterOperand d).owed.length := by
  have := due_le d st.owed
  simp only [afterOperand, List.length_drop]
  omega

theorem closes_closing {st : Enclosing} {n d : Nat} (h : d = n + st.owed.length) (ks : List Token) :
    Bracket.closes d (parens (st.closing d ++ ks)) =
      Bracket.closes (st.afterOperand d).depth (parens ks) := by
  have hd : d = (st.afterOperand d).depth + due d st.owed := by
    have := due_le d st.owed
    simp only [afterOperand]
    omega
  have hc := closes_rparens (due d st.owed) (st.afterOperand d).depth ks
  rwa [← hd] at hc

end Enclosing

/-- The reader has as many parentheses open as the tokens before it, and one for each that is
owed. -/
theorem closes_encloseFrom {ts : List Token} (st : Enclosing) {d : Nat}
    (hd : st.depth = d + st.owed.length) (h : Bracket.closes d (parens ts) = true) :
    Bracket.closes st.depth (parens (encloseFrom st ts)) = true := by
  induction ts generalizing st d with
  | nil =>
    obtain rfl : d = 0 := of_decide_eq_true h
    have hc := closes_rparens st.owed.length 0 []
    rw [List.append_nil, ← hd] at hc
    exact hc
  | cons k ts ih =>
    rw [encloseFrom]
    have hstep := st.step_next k
    have htail := @ih (st.next k)
    generalize st.emit k = us, st.next k = st' at hstep htail ⊢
    cases hstep with
    | plus => exact htail hd h
    | minus =>
      have hd' : st.depth + 1 = d + ((st.depth + 1) :: st.owed).length := by
        rw [List.length_cons]
        omega
      exact htail hd' h
    | operator => exact htail hd h
    | lparen =>
      have hd' : st.depth + 1 = (d + 1) + st.owed.length := by omega
      exact htail hd' h
    | operand he =>
      obtain ⟨n, rfl, rfl⟩ | ⟨x, rfl, rfl⟩ | ⟨rfl, rfl⟩ := Enclosing.eq_of_ending? he
      · exact (Enclosing.closes_closing hd _).trans (htail (Enclosing.depth_afterOperand hd) h)
      · exact (Enclosing.closes_closing hd _).trans (htail (Enclosing.depth_afterOperand hd) h)
      · rw [closes_parens_cons] at h
        simp only [Bool.and_eq_true, bne_iff_ne, ne_eq] at h
        have hd' : st.depth - 1 = (d - 1) + st.owed.length := by omega
        have hpos : st.depth ≠ 0 := by omega
        rw [List.cons_append, closes_parens_cons]
        simp only [Bool.and_eq_true, bne_iff_ne, ne_eq]
        exact ⟨hpos, (Enclosing.closes_closing hd' _).trans
          (htail (Enclosing.depth_afterOperand hd') h.2)⟩

end Sign

namespace Infix

open Token

theorem parens_signTokens (ss : List Sign) : parens (signTokens ss) = [] := by
  induction ss with
  | nil => rfl
  | cons s ss ih => exact ih

mutual

theorem Operand.closes_tokens (a : Operand) (d : Nat) (ts : List Token) :
    Bracket.closes d (parens (a.tokens ++ ts)) = Bracket.closes d (parens ts) := by
  cases a with
  | int n => rfl
  | name x => rfl
  | group g =>
    rw [tokens_group_append]
    exact Group.closes_tokens g (d + 1) (.rparen :: ts)

/-- The parentheses of a group are balanced. -/
theorem Group.closes_tokens (g : Group) (d : Nat) (ts : List Token) :
    Bracket.closes d (parens (g.tokens ++ ts)) = Bracket.closes d (parens ts) := by
  obtain ⟨ss, first, rest⟩ := g
  rw [tokens_mk_append, parens_append, parens_signTokens, List.nil_append,
    Operand.closes_tokens first, Rest.closes_tokens rest]

theorem Rest.closes_tokens (r : Rest) (d : Nat) (ts : List Token) :
    Bracket.closes d (parens (r.tokens ++ ts)) = Bracket.closes d (parens ts) := by
  cases r with
  | nil => rfl
  | cons o ss a r =>
    rw [tokens_cons_append, parens_cons, parens_append, parens_signTokens]
    change Bracket.closes d (parens (a.tokens ++ (r.tokens ++ ts))) = _
    rw [Operand.closes_tokens a, Rest.closes_tokens r]

end

end Infix

end LineCalc
