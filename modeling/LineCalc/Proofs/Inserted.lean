import LineCalc.Proofs.Settled

/-!
# What is put in

Enclosing the signs drops each plus that stands where an operand is expected, and puts parentheses
in: an opening one before each minus after an operator, and as many closing ones, none of them too
early (`bracketed_encloseFrom`).  Nothing else is lost or doubled, whatever the tokens are.

The reader owes a closing parenthesis for each one that it has put in.  This is by how much the
parentheses that it has written are more open than those that it has read (`excess_written`).
-/

namespace LineCalc.Sign

open Token

/-- The tokens without each plus that stands where an operand is expected, given whether one is
expected first. -/
def dropPlus : Bool → List Token → List Token
  | _, [] => []
  | e, k :: ks => if e ∧ k = .op .add then dropPlus k.expects ks else k :: dropPlus k.expects ks

/-- `Bracketed n p ks us` says that `us` are the tokens `ks` with parentheses put in: an opening one
directly before each minus that directly follows an operator, and closing ones, each of which pays
for an opening one that has been put in before.  The tokens come after the place `p`, and `n`
parentheses that have been put in before them are to be closed among them. -/
inductive Bracketed : Nat → Place → List Token → List Token → Prop
  | nil (p : Place) : Bracketed 0 p [] []
  | minus {n : Nat} {ks us : List Token} (h : Bracketed (n + 1) .operator ks us) :
    Bracketed n .operator (.op .sub :: ks) (.lparen :: .op .sub :: us)
  | token {n : Nat} {p : Place} {k : Token} {ks us : List Token}
    (hk : ¬ (p = .operator ∧ k = .op .sub)) (h : Bracketed n k.place ks us) :
    Bracketed n p (k :: ks) (k :: us)
  | closing {n : Nat} {p : Place} {ks us : List Token} (h : Bracketed n p ks us) :
    Bracketed (n + 1) p ks (.rparen :: us)

variable {n : Nat} {p : Place} {k : Token} {ks us : List Token} {st st' : Enclosing}

theorem dropPlus_add (hp : p ≠ .operand) :
    dropPlus p.expects (.op .add :: ks) = dropPlus p.expects ks := by
  cases p with
  | opening => rfl
  | operator => rfl
  | operand => exact absurd rfl hp

theorem dropPlus_cons (hk : k = .op .add → p = .operand) :
    dropPlus p.expects (k :: ks) = k :: dropPlus k.place.expects ks := by
  rw [expects_place]
  refine if_neg fun ⟨he, hadd⟩ => ?_
  rw [hk hadd] at he
  cases he

theorem Bracketed.closings (h : Bracketed n p ks us) (m : Nat) :
    Bracketed (n + m) p ks (List.replicate m .rparen ++ us) := by
  induction m with
  | zero => exact h
  | succ m ih => exact ih.closing

/-- What is written after a place is what is read there, with the parentheses that are owed. -/
theorem bracketed_encloseFrom (st : Enclosing) (ts : List Token) :
    Bracketed st.owed.length st.place (dropPlus st.place.expects ts) (encloseFrom st ts) := by
  induction ts generalizing st with
  | nil =>
    have hend := (Bracketed.nil st.place).closings st.owed.length
    rwa [Nat.zero_add, List.append_nil] at hend
  | cons k ts ih =>
    rw [encloseFrom]
    have hstep := st.step_next k
    have htail := ih (st.next k)
    generalize st.emit k = us, st.next k = st' at hstep htail ⊢
    cases hstep with
    | plus hp =>
      rw [dropPlus_add hp]
      exact htail
    | minus hp =>
      rw [dropPlus_cons (k := .op .sub) nofun, hp]
      exact .minus htail
    | operator hadd hsub =>
      rw [dropPlus_cons fun h => hadd (Token.op.inj h)]
      exact .token (fun ⟨hp, hk⟩ => hsub (Token.op.inj hk) hp) htail
    | lparen =>
      rw [dropPlus_cons (k := .lparen) nofun]
      exact .token nofun htail
    | @operand _ d hd =>
      have hplace := Enclosing.place_of_ending? hd
      have hk (o : Operator) : k ≠ .op o := by
        rintro rfl
        cases hd
      have hdue : (st.afterOperand d).owed.length + Enclosing.due d st.owed = st.owed.length := by
        rw [Enclosing.afterOperand, List.length_drop]
        exact Nat.sub_add_cancel (Enclosing.due_le d st.owed)
      rw [dropPlus_cons fun h => absurd h (hk .add), ← hdue]
      refine .token (fun h => hk .sub h.2) ?_
      rw [hplace]
      exact htail.closings _

/-! ## Counting parentheses -/

/-- The number of opening parentheses less that of closing ones. -/
def excess (ts : List Token) : Int := ts.count .lparen - ts.count .rparen

theorem excess_append (ts us : List Token) : excess (ts ++ us) = excess ts + excess us := by
  simp only [excess, List.count_append]
  omega

theorem excess_rparens (m : Nat) : excess (List.replicate m .rparen) = -m := by
  simp [excess, List.count_replicate]

/-- A step opens as many parentheses more than it reads as it adds to those that are owed. -/
theorem excess_of_step (h : st.Step k us st') :
    excess us + st.owed.length = excess [k] + st'.owed.length := by
  cases h with
  | plus => simp [excess]
  | minus => simp [excess]; omega
  | operator => rfl
  | lparen => rfl
  | @operand _ d hd =>
    have := Enclosing.due_le d st.owed
    rw [← List.singleton_append, excess_append, Enclosing.closing, excess_rparens,
      Enclosing.afterOperand, List.length_drop]
    omega

theorem excess_written (st : Enclosing) (ts : List Token) :
    excess (written st ts) + st.owed.length =
      excess ts + (ts.foldl Enclosing.next st).owed.length := by
  induction ts generalizing st with
  | nil => rfl
  | cons k ts ih =>
    have hstep := excess_of_step (st.step_next k)
    have htail := ih (st.next k)
    rw [written, excess_append, ← List.singleton_append, excess_append, List.singleton_append,
      List.foldl_cons]
    omega

theorem excess_enclose (ts : List Token) : excess (enclose ts) = excess ts := by
  have hwritten := excess_written .start ts
  have hend : enclose ts = written .start ts ++
      List.replicate (ts.foldl Enclosing.next .start).owed.length .rparen := by
    have happend := encloseFrom_append .start ts []
    rwa [List.append_nil] at happend
  rw [hend, excess_append, excess_rparens]
  change excess (written .start ts) + (0 : Nat) = _ at hwritten
  omega

/-- Whatever the tokens are, enclosing their signs drops the plus signs of operands and puts in a
parenthesis before each minus that then follows an operator, and later one that closes it.  So the
parentheses stay as many as they were, what has been written is at no time less open than what has
been read, and balanced tokens stay balanced. -/
theorem bracketed_enclose (ts : List Token) :
    Bracketed 0 .opening (dropPlus true ts) (enclose ts) ∧
    excess (enclose ts) = excess ts ∧
    (∀ n, written .start (ts.take n) <+: enclose ts ∧
      excess (ts.take n) ≤ excess (written .start (ts.take n))) ∧
    (Bracket.balanced (parens ts) = true → Bracket.balanced (parens (enclose ts)) = true) := by
  refine ⟨bracketed_encloseFrom .start ts, excess_enclose ts, fun n => ⟨?_, ?_⟩, fun h => ?_⟩
  · have happend := encloseFrom_append .start (ts.take n) (ts.drop n)
    rw [List.take_append_drop] at happend
    exact ⟨_, happend.symm⟩
  · have hwritten := excess_written .start (ts.take n)
    change excess (written .start (ts.take n)) + (0 : Nat) = _ at hwritten
    omega
  · exact closes_encloseFrom .start rfl h

end LineCalc.Sign
