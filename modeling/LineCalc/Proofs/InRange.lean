import LineCalc.Checked
import LineCalc.Proofs.Literal

/-!
# No operation leaves its range

On the table of a store every line is carried out, and every function of the calculator gives its
result, without an operation that leaves its range (`stays_in_range`).  Each kind of operation has a
reason of its own: the index of a store points to bindings; the canonical form of a text begins with
a sign, which takes one byte; the depths at which parentheses are owed are positive (`Owing`), also
for tokens whose parentheses do not match; and before the depth is lowered in a text, and before a
quotient is formed, there is a test for zero.
-/

namespace LineCalc.Checked

variable {ε α β : Type}

/-! ## Computations in range -/

theorem ok_bind (a : α) (f : α → Checked β) : (Except.ok a >>= f : Checked β) = f a := rfl

theorem run_total (x : Except ε α) : (total x).run = .ok x := rfl

theorem total_bind {x : ExceptT ε Checked α} {y : Except ε α} {f : α → ExceptT ε Checked β}
    {g : α → Except ε β} (hx : x = total y) (hf : ∀ a, f a = total (g a)) :
    x >>= f = total (y >>= g) := by
  subst hx
  cases y with
  | ok a => exact hf a
  | error e => rfl

theorem adapt_total {ε' : Type} (f : ε → ε') (x : Except ε α) :
    (total x).adapt f = total (x.mapError f) := by
  cases x <;> rfl

theorem foldlM_total {f : β → α → ExceptT ε Checked β} {g : β → α → Except ε β}
    (h : ∀ b a, f b a = total (g b a)) (as : List α) (b : β) :
    as.foldlM f b = total (as.foldlM g b) := by
  induction as generalizing b with
  | nil => rfl
  | cons a as ih =>
    rw [List.foldlM_cons, List.foldlM_cons]
    exact total_bind (h b a) ih

/-! ## Variables -/

theorem entry_of_lt {es : List (Name × Int)} {i : Nat} (h : i < es.length) :
    entry es i = .ok es[i] := by
  simp only [entry, List.getElem?_eq_getElem h]
  rfl

theorem setValue_of_lt {es : List (Name × Int)} {i : Nat} (h : i < es.length) (v : Int) :
    setValue es i v = .ok (es.modify i fun e => (e.1, v)) := by
  rw [setValue, entry_of_lt h, List.modify_eq_set_getElem?, List.getElem?_eq_getElem h]
  rfl

theorem get?_eq (s : Store) (x : Name) : get? s.toTable x = .ok (s.get? x) := by
  unfold get?
  cases hx : s.index x with
  | none =>
    have hx : s.slot? x = none := hx
    rw [Store.get?, hx]
    rfl
  | some i =>
    have hi := Store.slot?_lt_size hx
    simp only [entry_of_lt hi]
    rw [Store.get?_of_slot? hx, List.getElem?_eq_getElem hi]
    rfl

/-- In other tables the index may give a name a place that does not exist. -/
example : get? ⟨[], fun _ => some 0⟩ ['a'] = .error (.place 0) := rfl

theorem assign_eq (s : Store) (x : Name) (v : Int) :
    assign s.toTable x v = .ok (s.assign x v).toTable := by
  unfold assign
  cases hx : s.index x with
  | none => rfl
  | some i =>
    simp only [setValue_of_lt (Store.slot?_lt_size hx), Store.assign, Table.assign, hx]
    rfl

theorem foldlM_assign (s : Store) (es : List (Name × Int)) :
    es.foldlM (fun t e => assign t e.1 e.2) s.toTable =
      .ok (es.foldl (fun s e => s.assign e.1 e.2) s).toTable := by
  induction es generalizing s with
  | nil => rfl
  | cons e es ih =>
    rw [List.foldlM_cons, assign_eq, List.foldl_cons]
    exact ih _

theorem resolve_eq (s : Store) (x : Name) : resolve s.toTable x = total (s.resolve x) := by
  rw [resolve, get?_eq, Store.resolve]
  cases s.get? x <;> rfl

theorem substitute_eq (s : Store) (ks : List Token) :
    substitute s.toTable ks = total (s.substitute ks) := by
  induction ks with
  | nil => rfl
  | cons k ks ih =>
    cases k with
    | name x => exact total_bind (resolve_eq s x) fun v => total_bind ih fun us => rfl
    | int n => exact total_bind ih fun us => rfl
    | op o => exact total_bind ih fun us => rfl
    | lparen => exact total_bind ih fun us => rfl
    | rparen => exact total_bind ih fun us => rfl

/-! ## Lines -/

/-- A sign takes one byte, so that a text can be cut after it. -/
theorem cut_symbol (s : Sign) (t : Text) : cut 1 (s.symbol :: t) = .ok ([s.symbol], t) := by
  have hsize : s.symbol.utf8Size = 1 := by cases s <;> rfl
  have hzero : cut 0 t = .ok ([], t) := by cases t <;> rfl
  rw [cut, hsize, hzero]
  rfl

/-- Other characters may take more than one byte. -/
example : cut 1 ['\u00e9', '5'] = .error (.boundary 1) := by decide

theorem literal?_eq (t : Text) : literal? t = .ok (Sign.literal? t) := by
  obtain ⟨s, u, hs⟩ := Sign.exists_collapse t
  have hsign : (if [s.symbol] = ['-'] then Sign.minus else .plus) = s := by cases s <;> rfl
  simp only [literal?, Sign.literal?, hs, Sign.ofSymbol?_symbol, cut_symbol, ok_bind, hsign]
  rfl

/-- The text of a literal is not refused when its value is read. -/
theorem literal?_of_denotes {t : Text} {v : Int} (h : Source.Denotes t (.literal v)) :
    Sign.literal? t = some v := by
  have htrim : t.trim = t := h.trim_eq
  cases h with
  | @literal signs ds hs hds =>
    have hsigns : ∀ c ∈ signs.map Sign.symbol, Text.isContent c = false := by
      intro c hc
      obtain ⟨s, -, rfl⟩ := List.mem_map.1 hc
      exact Text.isContent_symbol s
    exact Sign.literal?_eq_some_iff_run.2
      ⟨signs.map Sign.symbol, ds, htrim, hsigns, hds, by rw [Sign.net_map_symbol]⟩

theorem source?_eq (t : Text) : source? t = .ok (Source.ofText? t) := by
  obtain ⟨signs, u, hs, rfl, hsplit⟩ := Source.exists_splitSign t
  simp only [source?, Source.ofText?, hsplit]
  split
  · next h =>
    rw [literal?_eq, literal?_of_denotes (.literal hs h)]
    rfl
  · rfl

theorem assignment?_eq (t : Text) : assignment? t = .ok (Statement.assignment? t) := by
  unfold assignment? Statement.assignment?
  cases Statement.splitTarget? t with
  | none => rfl
  | some p =>
    obtain ⟨x, r⟩ := p
    simp only [source?_eq, ok_bind, Option.bind_eq_bind, Option.bind_some]
    cases Source.ofText? r <;> rfl

theorem classify_eq (line : Text) : classify line = .ok (Statement.classify line) := by
  unfold classify Statement.classify Statement.ofTrimmed
  simp only [assignment?_eq]
  split
  · rfl
  · cases Statement.assignment? line.trim <;> rfl

/-! ## Expressions -/

theorem closes_eq (d : Nat) (t : Text) : closes d t = .ok (Bracket.closes d t) := by
  induction t generalizing d with
  | nil => rfl
  | cons c t ih =>
    unfold closes Bracket.closes
    split
    · exact ih _
    · split
      · cases d with
        | zero => rfl
        | succ d => exact ih d
      · exact ih d

theorem balanced_eq (t : Text) : balanced t = .ok (Bracket.balanced t) := closes_eq 0 t

/-- Parentheses are owed at positive depths only. -/
def Owing (st : Sign.Enclosing) : Prop := ∀ o ∈ st.owed, 0 < o

theorem settle_eq {os : List Nat} (h : ∀ o ∈ os, 0 < o) (d : Nat) :
    settle d os = .ok (List.replicate (Sign.Enclosing.due d os) .rparen,
      d - Sign.Enclosing.due d os, os.drop (Sign.Enclosing.due d os)) := by
  induction os generalizing d with
  | nil => rfl
  | cons o os ih =>
    unfold settle Sign.Enclosing.due
    split
    · next hod =>
      obtain ⟨e, rfl⟩ : ∃ e, d = e + 1 := ⟨d - 1, by have := h o List.mem_cons_self; omega⟩
      have hlower : lower (e + 1) = .ok e := rfl
      have hlevel : e + 1 - (Sign.Enclosing.due e os + 1) = e - Sign.Enclosing.due e os := by omega
      rw [hlower, ok_bind, ih fun o ho => h o (List.mem_cons_of_mem _ ho), Nat.add_sub_cancel,
        hlevel, List.drop_succ_cons, List.replicate_succ]
      rfl
    · rfl

/-- A parenthesis that was owed at depth zero could not be closed. -/
example : settle 0 [0] = .error .depth := rfl

theorem operand_eq {st : Sign.Enclosing} (h : Owing st) (k : Token) (d : Nat) :
    operand st k d = .ok (k :: st.closing d, st.afterOperand d) := by
  rw [operand, settle_eq h]
  rfl

theorem encloseStep_eq {st : Sign.Enclosing} (h : Owing st) (k : Token) :
    encloseStep st k = .ok (st.emit k, st.next k) := by
  cases k with
  | int n => exact operand_eq h _ _
  | name x => exact operand_eq h _ _
  | rparen => exact operand_eq h _ _
  | op o => rfl
  | lparen => rfl

theorem owing_afterOperand {st : Sign.Enclosing} (h : Owing st) (d : Nat) :
    Owing (st.afterOperand d) :=
  fun o ho => h o (List.mem_of_mem_drop ho)

/-- Each token keeps the depths at which parentheses are owed positive.  Nothing is needed of the
depth itself, which is not the number of open parentheses any more after one is closed that was not
open. -/
theorem owing_next {st : Sign.Enclosing} (h : Owing st) (k : Token) : Owing (st.next k) := by
  cases k with
  | int n => exact owing_afterOperand h _
  | name x => exact owing_afterOperand h _
  | rparen => exact owing_afterOperand h _
  | lparen => exact h
  | op o =>
    cases o with
    | add =>
      simp only [Sign.Enclosing.next]
      split <;> exact h
    | sub =>
      simp only [Sign.Enclosing.next]
      split
      · intro o ho
        obtain rfl | ho := List.mem_cons.1 ho
        · exact Nat.succ_pos _
        · exact h o ho
      · exact h
    | mul => exact h
    | div => exact h
    | pow => exact h

theorem encloseFrom_eq {st : Sign.Enclosing} (h : Owing st) (ks : List Token) :
    encloseFrom st ks = .ok (Sign.encloseFrom st ks) := by
  induction ks generalizing st with
  | nil => rfl
  | cons k ks ih =>
    simp only [encloseFrom, encloseStep_eq h, ok_bind, ih (owing_next h k)]
    rfl

theorem enclose_eq (ks : List Token) : enclose ks = .ok (Sign.enclose ks) :=
  encloseFrom_eq (fun _ ho => absurd ho List.not_mem_nil) ks

theorem apply_eq (o : Operator) (a b : Int) : apply o a b = total (o.apply a b) := by
  cases o with
  | div =>
    by_cases hb : b = 0
    · simp only [apply, Operator.apply, if_pos hb]
      rfl
    · simp only [apply, Operator.apply, quotient, if_neg hb]
      rfl
  | add => rfl
  | sub => rfl
  | mul => rfl
  | pow => rfl

theorem step_eq (st : List Int) (k : Term) : step st k = total (Postfix.step st k) := by
  cases k with
  | int n => rfl
  | op o =>
    match st with
    | [] => rfl
    | [b] => rfl
    | b :: a :: st =>
      rw [step, Postfix.step, apply_eq]
      cases o.apply a b <;> rfl

theorem evaluate_eq (p : Postfix) : evaluate p = total p.value :=
  total_bind (foldlM_total step_eq p []) fun _ => rfl

theorem tokensValue_eq (ks : List Token) : tokensValue ks = total (Expression.tokensValue ks) := by
  rw [tokensValue, enclose_eq]
  refine total_bind (adapt_total _ _) fun p => ?_
  rw [evaluate_eq, adapt_total]

theorem value_eq (s : Store) (u : Text) : value s.toTable u = total (Expression.value s u) := by
  simp only [value, Expression.value, balanced_eq]
  cases Bracket.balanced (Sign.collapse u) with
  | false => rfl
  | true =>
    refine total_bind (adapt_total _ _) fun ks => total_bind ?_ tokensValue_eq
    rw [substitute_eq, adapt_total]

/-! ## Sessions -/

theorem sourceValue_eq (s : Store) (source : Source) :
    sourceValue s.toTable source = total (Session.sourceValue s source) := by
  cases source with
  | literal v => rfl
  | copy sign x =>
    rw [sourceValue, Session.sourceValue, resolve_eq]
    cases s.resolve x <;> rfl

theorem run_eq (s : Store) (st : Statement) :
    run s.toTable st = .ok ((Session.run s st).1, (Session.run s st).2.toTable) := by
  cases st with
  | empty => rfl
  | badAssignment => rfl
  | command c => cases c <;> rfl
  | query x =>
    simp only [run, Session.run, get?_eq]
    cases s.get? x <;> rfl
  | assign x source =>
    simp only [run, Session.run, sourceValue_eq]
    cases Session.sourceValue s source with
    | ok v =>
      simp only [run_total, ok_bind, assign_eq]
      rfl
    | error e => rfl
  | expression u =>
    simp only [run, Session.run, value_eq]
    cases Expression.value s u <;> rfl

theorem execute_eq (s : Store) (line : Text) :
    execute s.toTable line =
      .ok ((Session.execute s line).1, (Session.execute s line).2.toTable) := by
  rw [execute, classify_eq]
  exact run_eq s _

theorem history_eq (s : Store) (ls : List Text) :
    history s.toTable ls = .ok (Session.outcomes s ls, (Session.after s ls).toTable) := by
  induction ls generalizing s with
  | nil => rfl
  | cons l ls ih =>
    simp only [history, execute_eq, ok_bind, ih]
    rfl

/-- No operation leaves its range.  Assignments build a store from nothing, a line is carried out on
a store, and the values of names are found and assigned, all with the results that they have when
the range is not watched; and so are signs enclosed, parentheses checked, and literals and postfix
expressions evaluated, whatever the text, the tokens or the terms are. -/
theorem stays_in_range :
    (∀ es : List (Name × Int),
      es.foldlM (fun t e => assign t e.1 e.2) .empty = .ok (Store.ofList es).toTable) ∧
    (∀ (s : Store) (line : Text), execute s.toTable line =
      .ok ((Session.execute s line).1, (Session.execute s line).2.toTable)) ∧
    (∀ (s : Store) (ls : List Text), history s.toTable ls =
      .ok (Session.outcomes s ls, (Session.after s ls).toTable)) ∧
    (∀ (s : Store) (x : Name), get? s.toTable x = .ok (s.get? x)) ∧
    (∀ (s : Store) (x : Name) (v : Int), assign s.toTable x v = .ok (s.assign x v).toTable) ∧
    (∀ t : Text, literal? t = .ok (Sign.literal? t)) ∧
    (∀ ks : List Token, enclose ks = .ok (Sign.enclose ks)) ∧
    (∀ t : Text, balanced t = .ok (Bracket.balanced t)) ∧
    ∀ p : Postfix, (evaluate p).run = .ok p.value :=
  ⟨foldlM_assign .empty, execute_eq, history_eq, get?_eq, assign_eq, literal?_eq, enclose_eq,
    balanced_eq, evaluate_eq⟩

end LineCalc.Checked
