import LineCalc.Proofs.Parens

/-!
# Tokens in and out of order

Two things can be wrong with the order of tokens: an operand may be missing, before an operator that
is no sign, before a closing parenthesis or at the end (`missing`), and two operands may stand side
by side (`adjacent`).  The tokens of groups are the balanced ones without such faults
(`exists_group_iff`).
-/

namespace LineCalc

namespace Token

/-! ## Faults in the order -/

/-- Whether an operand begins with the token. -/
def begins : Token → Bool
  | int _ => true
  | name _ => true
  | op _ => false
  | lparen => true
  | rparen => false

/-- Whether an operand has to stand before the token. -/
def follows : Token → Bool
  | int _ => false
  | name _ => false
  | op o => o.sign?.isNone
  | lparen => false
  | rparen => true

/-- Whether an operand has to stand after the token. -/
def expects : Token → Bool
  | int _ => false
  | name _ => false
  | op _ => true
  | lparen => true
  | rparen => false

/-- The number of times that an operand begins where none is expected, given whether one is expected
first. -/
def adjacentFrom : Bool → List Token → Nat
  | _, [] => 0
  | e, k :: ks => (!e && k.begins).toNat + adjacentFrom k.expects ks

/-- The number of times that an operand is expected in vain, given whether one is expected first. -/
def missingFrom : Bool → List Token → Nat
  | e, [] => e.toNat
  | e, k :: ks => (e && k.follows).toNat + missingFrom k.expects ks

/-- The number of pairs of operands with nothing between them. -/
def adjacent (ks : List Token) : Nat := adjacentFrom true ks

/-- The number of missing operands. -/
def missing (ks : List Token) : Nat := missingFrom true ks

/-- Tokens without such faults, whose parentheses close `d` open ones. -/
structure Orderly (e : Bool) (d : Nat) (ks : List Token) : Prop where
  missing : missingFrom e ks = 0
  adjacent : adjacentFrom e ks = 0
  closes : Bracket.closes d (parens ks) = true

variable {e : Bool} {d : Nat} {ks : List Token}

theorem orderly_iff : Orderly e d ks ↔
    missingFrom e ks = 0 ∧ adjacentFrom e ks = 0 ∧ Bracket.closes d (parens ks) = true :=
  ⟨fun h => ⟨h.missing, h.adjacent, h.closes⟩, fun h => ⟨h.1, h.2.1, h.2.2⟩⟩

theorem orderly_nil : Orderly e d [] ↔ e = false ∧ d = 0 := by
  cases e <;> simp [orderly_iff, missingFrom, adjacentFrom, parens, Bracket.closes]

theorem orderly_int (n : Int) : Orderly e d (int n :: ks) ↔ e = true ∧ Orderly false d ks := by
  cases e <;> simp [orderly_iff, missingFrom, adjacentFrom, begins, follows, expects,
    closes_parens_cons]

theorem orderly_name (x : Name) : Orderly e d (name x :: ks) ↔ e = true ∧ Orderly false d ks := by
  cases e <;> simp [orderly_iff, missingFrom, adjacentFrom, begins, follows, expects,
    closes_parens_cons]

theorem orderly_op (o : Operator) : Orderly e d (op o :: ks) ↔
    (e = true → o.sign?.isSome = true) ∧ Orderly true d ks := by
  cases e <;> cases ho : o.sign? <;> simp [orderly_iff, missingFrom, adjacentFrom, begins, follows,
    expects, closes_parens_cons, ho]

theorem orderly_lparen : Orderly e d (lparen :: ks) ↔ e = true ∧ Orderly true (d + 1) ks := by
  cases e <;> simp [orderly_iff, missingFrom, adjacentFrom, begins, follows, expects,
    closes_parens_cons]

theorem orderly_rparen : Orderly e d (rparen :: ks) ↔
    e = false ∧ d ≠ 0 ∧ Orderly false (d - 1) ks := by
  cases e <;> simp [orderly_iff, missingFrom, adjacentFrom, begins, follows, expects,
    closes_parens_cons, and_left_comm]

end Token

namespace Infix

open Token

/-! ## The order in a group -/

theorem orderly_signTokens (ss : List Sign) {d : Nat} {ts : List Token} :
    Orderly true d (signTokens ss ++ ts) ↔ Orderly true d ts := by
  induction ss with
  | nil => rfl
  | cons s ss ih =>
    change Orderly true d (.op s.operator :: (signTokens ss ++ ts)) ↔ _
    rw [orderly_op, ih, Operator.sign?_operator]
    simp

mutual

theorem Operand.orderly_tokens (a : Operand) {d : Nat} {ts : List Token} :
    Orderly true d (a.tokens ++ ts) ↔ Orderly false d ts := by
  cases a with
  | int n => exact (orderly_int n).trans (by simp)
  | name x => exact (orderly_name x).trans (by simp)
  | group g =>
    rw [tokens_group_append, orderly_lparen, Group.orderly_tokens g, orderly_rparen]
    simp

/-- A group stands in order where an operand is expected. -/
theorem Group.orderly_tokens (g : Group) {d : Nat} {ts : List Token} :
    Orderly true d (g.tokens ++ ts) ↔ Orderly false d ts := by
  obtain ⟨ss, first, rest⟩ := g
  rw [tokens_mk_append, orderly_signTokens, Operand.orderly_tokens first,
    Rest.orderly_tokens rest]

theorem Rest.orderly_tokens (r : Rest) {d : Nat} {ts : List Token} :
    Orderly false d (r.tokens ++ ts) ↔ Orderly false d ts := by
  cases r with
  | nil => rfl
  | cons o ss a r =>
    rw [tokens_cons_append, orderly_op, orderly_signTokens, Operand.orderly_tokens a,
      Rest.orderly_tokens r]
    simp

end

/-! ## Reading groups -/

/-- The ends of open groups: each is closed, and goes on after that. -/
def closings (rs : List Rest) : List Token := rs.flatMap fun r => .rparen :: r.tokens

/-- The tokens of the rest of a group, and of the ends of the `d` groups around it; where an operand
is expected, of a group that has not begun yet. -/
def Grouped : Bool → Nat → List Token → Prop
  | true, d, ks => ∃ (g : Group) (rs : List Rest), rs.length = d ∧ ks = g.tokens ++ closings rs
  | false, d, ks => ∃ (r : Rest) (rs : List Rest), rs.length = d ∧ ks = r.tokens ++ closings rs

variable {e : Bool} {d : Nat} {ks : List Token}

/-- An operand that has been read is the first of a group. -/
theorem grouped_operand (a : Operand) (h : Grouped false d ks) :
    Grouped true d (a.tokens ++ ks) := by
  obtain ⟨r, rs, hrs, rfl⟩ := h
  exact ⟨.mk [] a r, rs, hrs, by simp [Group.tokens, signTokens]⟩

theorem grouped_sign (s : Sign) (h : Grouped true d ks) :
    Grouped true d (.op s.operator :: ks) := by
  obtain ⟨⟨ss, a, r⟩, rs, hrs, rfl⟩ := h
  exact ⟨.mk (s :: ss) a r, rs, hrs, by simp [Group.tokens, signTokens]⟩

theorem grouped_lparen (h : Grouped true (d + 1) ks) : Grouped true d (.lparen :: ks) := by
  obtain ⟨g, rs, hrs, rfl⟩ := h
  cases rs with
  | nil => cases hrs
  | cons r rs =>
    refine ⟨.mk [] (.group g) r, rs, Nat.succ.inj hrs, ?_⟩
    simp [closings, Group.tokens, Operand.tokens, signTokens]

theorem grouped_operator (o : Operator) (h : Grouped true d ks) :
    Grouped false d (.op o :: ks) := by
  obtain ⟨⟨ss, a, r⟩, rs, hrs, rfl⟩ := h
  exact ⟨.cons o ss a r, rs, hrs, by simp [Group.tokens, Rest.tokens]⟩

theorem grouped_rparen (h : Grouped false d ks) : Grouped false (d + 1) (.rparen :: ks) := by
  obtain ⟨r, rs, hrs, rfl⟩ := h
  exact ⟨.nil, r :: rs, congrArg (· + 1) hrs, rfl⟩

/-- Orderly tokens end the innermost open group, and then the groups around it. -/
theorem grouped_of_orderly (h : Orderly e d ks) : Grouped e d ks := by
  induction ks generalizing e d with
  | nil =>
    obtain ⟨rfl, rfl⟩ := orderly_nil.1 h
    exact ⟨.nil, [], rfl, rfl⟩
  | cons k ks ih =>
    cases k with
    | int n =>
      obtain ⟨rfl, htail⟩ := (orderly_int n).1 h
      exact grouped_operand (.int n) (ih htail)
    | name x =>
      obtain ⟨rfl, htail⟩ := (orderly_name x).1 h
      exact grouped_operand (.name x) (ih htail)
    | op o =>
      obtain ⟨hsign, htail⟩ := (orderly_op o).1 h
      cases e with
      | true =>
        obtain ⟨s, hs⟩ := Option.isSome_iff_exists.1 (hsign rfl)
        obtain rfl := Operator.sign?_eq_some_iff.1 hs
        exact grouped_sign s (ih htail)
      | false => exact grouped_operator o (ih htail)
    | lparen =>
      obtain ⟨rfl, htail⟩ := orderly_lparen.1 h
      exact grouped_lparen (ih htail)
    | rparen =>
      obtain ⟨rfl, hd, htail⟩ := orderly_rparen.1 h
      obtain ⟨d, rfl⟩ := Nat.exists_eq_succ_of_ne_zero hd
      exact grouped_rparen (ih htail)

/-- The tokens of groups are the balanced tokens with no operand missing and none side by side. -/
theorem exists_group_iff {ks : List Token} :
    (∃ g : Group, g.tokens = ks) ↔
      missing ks = 0 ∧ adjacent ks = 0 ∧ Bracket.closes 0 (parens ks) = true := by
  rw [missing, adjacent, ← orderly_iff]
  constructor
  · rintro ⟨g, rfl⟩
    rw [← List.append_nil g.tokens, Group.orderly_tokens]
    exact orderly_nil.2 ⟨rfl, rfl⟩
  · intro h
    obtain ⟨g, rs, hrs, rfl⟩ := grouped_of_orderly h
    obtain rfl := List.length_eq_zero_iff.1 hrs
    exact ⟨g, (List.append_nil _).symm⟩

end Infix

end LineCalc
