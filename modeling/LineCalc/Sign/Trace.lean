import LineCalc.Sign.Enclose

/-!
# Where the tokens come from

`trace` writes what `enclose` writes, and with each token the position in the input from which it
comes.  The parentheses that have been put in come from none.
-/

namespace LineCalc.Sign

/-- Of the tokens that are written for the token `k` at position `i`, the first that is equal to it
comes from there. -/
def mark (i : Nat) (k : Token) : List Token → List (Token × Option Nat)
  | [] => []
  | t :: ts => if t = k then (t, some i) :: ts.map (·, none) else (t, none) :: mark i k ts

/-- What is written for the tokens that are read from a state on, the first of them at position
`i`. -/
def traceFrom (st : Enclosing) (i : Nat) : List Token → List (Token × Option Nat)
  | [] => (List.replicate st.owed.length .rparen).map (·, none)
  | k :: ts => mark i k (st.emit k) ++ traceFrom (st.next k) (i + 1) ts

/-- What is written for tokens, with their positions. -/
def trace (ts : List Token) : List (Token × Option Nat) := traceFrom .start 0 ts

theorem mark_cons_self (i : Nat) (k : Token) (ts : List Token) :
    mark i k (k :: ts) = (k, some i) :: ts.map (·, none) :=
  if_pos rfl

theorem map_fst_inserted (ts : List Token) :
    (ts.map fun t => (t, (none : Option Nat))).map Prod.fst = ts := by
  rw [List.map_map]
  exact List.map_id ts

theorem map_fst_mark (i : Nat) (k : Token) (ts : List Token) :
    (mark i k ts).map Prod.fst = ts := by
  induction ts with
  | nil => rfl
  | cons t ts ih =>
    rw [mark]
    split
    · rw [List.map_cons, map_fst_inserted]
    · rw [List.map_cons, ih]

theorem map_fst_traceFrom (st : Enclosing) (i : Nat) (ts : List Token) :
    (traceFrom st i ts).map Prod.fst = encloseFrom st ts := by
  induction ts generalizing st i with
  | nil => exact map_fst_inserted _
  | cons k ts ih => rw [traceFrom, List.map_append, map_fst_mark, ih, encloseFrom]

/-- The trace is that of the tokens that are written. -/
theorem map_fst_trace (ts : List Token) : (trace ts).map Prod.fst = enclose ts :=
  map_fst_traceFrom .start 0 ts

/-- The token that comes from a position, with this position. -/
def origin? (u : Token × Option Nat) : Option (Token × Nat) := u.2.map (u.1, ·)

theorem filterMap_origin?_inserted (ts : List Token) :
    (ts.map fun t => (t, none)).filterMap origin? = [] := by
  rw [List.filterMap_map]
  exact List.filterMap_eq_nil_iff.2 fun _ _ => rfl

theorem filterMap_origin?_mark (i : Nat) (k : Token) (ts : List Token) :
    (mark i k ts).filterMap origin? = if k ∈ ts then [(k, i)] else [] := by
  induction ts with
  | nil => rfl
  | cons t ts ih =>
    by_cases ht : t = k
    · subst ht
      rw [mark_cons_self, if_pos List.mem_cons_self]
      exact congrArg ((t, i) :: ·) (filterMap_origin?_inserted ts)
    · have hmem : k ∈ t :: ts ↔ k ∈ ts := by simp [Ne.symm ht]
      rw [mark, if_neg ht]
      simp only [hmem]
      exact ih

/-- The positions are those of the same tokens in the input, in the same order. -/
theorem origins_traceFrom (st : Enclosing) (i : Nat) (ts : List Token) :
    ((traceFrom st i ts).filterMap origin?).Sublist (ts.zipIdx i) := by
  induction ts generalizing st i with
  | nil =>
    rw [traceFrom, filterMap_origin?_inserted]
    exact List.Sublist.slnil
  | cons k ts ih =>
    rw [traceFrom, List.filterMap_append, filterMap_origin?_mark, List.zipIdx_cons]
    split
    · exact (ih _ _).cons_cons (k, i)
    · exact (ih _ _).cons (k, i)

end LineCalc.Sign
