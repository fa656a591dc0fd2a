import LineCalc.Proofs.Parens

/-!
# Partners

An opening and a closing parenthesis are partners if each parenthesis between them has its partner
there.  One reading of the tokens with a stack of the open parentheses finds all partners
(`mem_pairs_iff`).  The tokens carry labels, by which equal ones are told apart.
-/

namespace LineCalc.Token

variable {ι : Type} {us : List (Token × ι)} {n : Nat} {a b c : ι}

/-- The tokens close `n` open parentheses, and all that they open. -/
def Closes (n : Nat) (us : List (Token × ι)) : Prop :=
  Bracket.closes n (parens (us.map Prod.fst)) = true

/-- The parentheses with the labels `a` and `b` are partners. -/
def Partners (us : List (Token × ι)) (a b : ι) : Prop :=
  ∃ x y z, us = x ++ (.lparen, a) :: (y ++ (.rparen, b) :: z) ∧ Closes 0 y

/-- The labels of partners.  The parentheses with the labels `st` are open at the start, the
innermost first; a closing one that closes nothing has no partner. -/
def pairs : List ι → List (Token × ι) → List (ι × ι)
  | _, [] => []
  | st, (.lparen, a) :: us => pairs (a :: st) us
  | a :: st, (.rparen, b) :: us => (a, b) :: pairs st us
  | [], (.rparen, _) :: us => pairs [] us
  | st, (.int _, _) :: us => pairs st us
  | st, (.name _, _) :: us => pairs st us
  | st, (.op _, _) :: us => pairs st us

theorem pairs_cons_of_ne {st : List ι} {k : Token} (hk : k.paren? = none) :
    pairs st ((k, c) :: us) = pairs st us := by
  cases k with
  | lparen => cases hk
  | rparen => cases hk
  | _ => rw [pairs]

/-! ## What closes an open parenthesis -/

/-- The parenthesis with the label `b` closes one that is open at the start, after `n` others. -/
def Ends (us : List (Token × ι)) (n : Nat) (b : ι) : Prop :=
  ∃ y z, us = y ++ (.rparen, b) :: z ∧ Closes n y

theorem ends_cons_iff {u : Token × ι} :
    Ends (u :: us) n b ↔ (n = 0 ∧ u = (.rparen, b)) ∨
      ∃ y z, us = y ++ (.rparen, b) :: z ∧ Closes n (u :: y) := by
  constructor
  · rintro ⟨y, z, hy, hn⟩
    cases y with
    | nil => exact Or.inl ⟨of_decide_eq_true hn, (List.cons.inj hy).1⟩
    | cons v y =>
      obtain ⟨rfl, rfl⟩ := List.cons.inj hy
      exact Or.inr ⟨y, z, rfl, hn⟩
  · rintro (⟨rfl, rfl⟩ | ⟨y, z, rfl, hn⟩)
    · exact ⟨[], us, rfl, rfl⟩
    · exact ⟨u :: y, z, rfl, hn⟩

theorem ends_cons_lparen : Ends ((.lparen, c) :: us) n b ↔ Ends us (n + 1) b := by
  rw [ends_cons_iff]
  simp [Ends, Closes, parens_cons, paren?, Bracket.closes]

theorem ends_cons_rparen_zero : Ends ((.rparen, c) :: us) 0 b ↔ c = b := by
  rw [ends_cons_iff]
  simp [Closes, parens_cons, paren?, Bracket.closes]

theorem ends_cons_rparen_succ : Ends ((.rparen, c) :: us) (n + 1) b ↔ Ends us n b := by
  rw [ends_cons_iff]
  simp [Ends, Closes, parens_cons, paren?, Bracket.closes]

theorem ends_cons_of_ne {k : Token} (hk : k.paren? = none) :
    Ends ((k, c) :: us) n b ↔ Ends us n b := by
  have hne : k ≠ .rparen := by
    rintro rfl
    cases hk
  rw [ends_cons_iff]
  simp [Ends, Closes, parens_cons, hk, hne]

theorem partners_cons_iff {u : Token × ι} :
    Partners (u :: us) a b ↔ (u = (.lparen, a) ∧ Ends us 0 b) ∨ Partners us a b := by
  constructor
  · rintro ⟨x, y, z, hx, hy⟩
    cases x with
    | nil =>
      obtain ⟨rfl, rfl⟩ := List.cons.inj hx
      exact Or.inl ⟨rfl, y, z, rfl, hy⟩
    | cons v x =>
      obtain ⟨rfl, rfl⟩ := List.cons.inj hx
      exact Or.inr ⟨x, y, z, rfl, hy⟩
  · rintro (⟨rfl, y, z, rfl, hy⟩ | ⟨x, y, z, rfl, hy⟩)
    · exact ⟨[], y, z, rfl, hy⟩
    · exact ⟨u :: x, y, z, rfl, hy⟩

theorem partners_cons_of_ne {k : Token} (hk : k ≠ .lparen) :
    Partners ((k, c) :: us) a b ↔ Partners us a b := by
  rw [partners_cons_iff]
  simp [hk]

/-! ## All partners -/

/-- Besides the partners, the pairs are those of the open parentheses and what closes them. -/
theorem mem_pairs_iff {st : List ι} :
    (a, b) ∈ pairs st us ↔ Partners us a b ∨ ∃ n, st[n]? = some a ∧ Ends us n b := by
  induction us generalizing st with
  | nil => simp [pairs, Partners, Ends]
  | cons u us ih =>
    obtain ⟨k, c⟩ := u
    -- Tokens other than parentheses change neither side.
    have hother (hk : k.paren? = none) (hne : k ≠ .lparen) :
        ((a, b) ∈ pairs st us ↔
          Partners ((k, c) :: us) a b ∨ ∃ n, st[n]? = some a ∧ Ends ((k, c) :: us) n b) := by
      simp only [ih, partners_cons_of_ne hne, ends_cons_of_ne hk]
    cases k with
    | lparen =>
      rw [pairs, ih, partners_cons_iff, ← Nat.or_exists_add_one]
      simp only [ends_cons_lparen, List.getElem?_cons_zero, List.getElem?_cons_succ,
        Option.some.injEq, Prod.mk.injEq, true_and]
      exact or_left_comm.trans or_assoc.symm
    | rparen =>
      cases st with
      | nil =>
        rw [pairs, ih, partners_cons_of_ne (k := .rparen) nofun]
        simp
      | cons d st =>
        have hfirst : (∃ n, (d :: st)[n]? = some a ∧ Ends ((.rparen, c) :: us) n b) ↔
            (d = a ∧ c = b) ∨ ∃ n, st[n]? = some a ∧ Ends us n b := by
          rw [← Nat.or_exists_add_one]
          simp only [ends_cons_rparen_zero, ends_cons_rparen_succ, List.getElem?_cons_zero,
            List.getElem?_cons_succ, Option.some.injEq]
        rw [pairs, List.mem_cons, ih, partners_cons_of_ne (k := .rparen) nofun, hfirst,
          Prod.mk.injEq, eq_comm (a := a), eq_comm (a := b)]
        exact or_left_comm
    | int m => exact hother rfl nofun
    | name x => exact hother rfl nofun
    | op o => exact hother rfl nofun

/-- The pairs of what comes after some tokens are among all pairs. -/
theorem exists_pairs_append (st : List ι) (us : List (Token × ι)) :
    ∃ st', ∀ vs, pairs st' vs ⊆ pairs st (us ++ vs) := by
  induction us generalizing st with
  | nil => exact ⟨st, fun vs => List.Subset.refl _⟩
  | cons u us ih =>
    obtain ⟨k, c⟩ := u
    cases k with
    | lparen => exact ih (c :: st)
    | rparen =>
      cases st with
      | nil => exact ih []
      | cons d st =>
        obtain ⟨st', h⟩ := ih st
        exact ⟨st', fun vs => List.subset_cons_of_subset _ (h vs)⟩
    | int m => exact ih st
    | name x => exact ih st
    | op o => exact ih st

theorem partners_iff_mem_pairs : Partners us a b ↔ (a, b) ∈ pairs [] us := by
  rw [mem_pairs_iff]
  simp

end LineCalc.Token
