import LineCalc.Proofs.Assignment

/-!
# Shapes of lines

`Statement.Shape` says of a text without blanks around it what it asks for, one constructor for each
kind of line.  A text has one shape only, and is classified by it (`ofTrimmed_eq_iff`).  Written
out, this says for each kind which lines are of that kind (`classify_eq_iff`).
-/

namespace LineCalc

/-- The lines that give a command. -/
def Command.Named (t : Text) : Command → Prop
  | exit => t = "/exit".toList
  | help => t = "/help".toList
  | listing => t = "/variables".toList
  | unknown u => u = t ∧ t ∉ ["/exit".toList, "/help".toList, "/variables".toList]

theorem Command.ofLine_eq_iff {t : Text} {c : Command} : ofLine t = c ↔ c.Named t := by
  unfold ofLine
  constructor
  · rintro rfl
    split
    · next h => exact h
    · next hexit =>
      split
      · next h => exact h
      · next hhelp =>
        split
        · next h => exact h
        · next hlisting =>
          refine ⟨rfl, ?_⟩
          simp only [List.mem_cons, List.not_mem_nil, or_false, not_or]
          exact ⟨hexit, hhelp, hlisting⟩
  · intro h
    cases c with
    | exit => obtain rfl := h; rfl
    | help => obtain rfl := h; rfl
    | listing => obtain rfl := h; rfl
    | unknown u =>
      obtain ⟨rfl, h⟩ := h
      simp only [List.mem_cons, List.not_mem_nil, or_false, not_or] at h
      rw [if_neg h.1, if_neg h.2.1, if_neg h.2.2]

namespace Statement

/-- What a text without blanks around it asks for. -/
inductive Shape (t : Text) : Statement → Prop
  | query (h : t.isName = true) : Shape t (.query t)
  | assign {x : Name} {r : Text} {source : Source} (hx : Assigns x r t)
    (hr : Source.Denotes r source) : Shape t (.assign x source)
  | badAssignment (heq : '=' ∈ t) (h : ∀ x r source, Assigns x r t → ¬ Source.Denotes r source) :
    Shape t .badAssignment
  | empty (h : t = []) : Shape t .empty
  | command (heq : '=' ∉ t) (h : t.head? = some '/') : Shape t (.command (.ofLine t))
  | expression (heq : '=' ∉ t) (hname : t.isName = false) (hne : t ≠ []) (h : t.head? ≠ some '/') :
    Shape t (.expression t)

variable {t r : Text} {x : Name} {st : Statement}

theorem Assigns.mem (h : Assigns x r t) : '=' ∈ t := by
  obtain ⟨-, w, w', -, -, rfl⟩ := h
  simp

theorem not_mem_of_isName (h : t.isName = true) : '=' ∉ t := by
  intro heq
  cases (Text.isName_iff.1 h).2 '=' heq

theorem assignment?_eq_none_iff :
    assignment? t = none ↔ ∀ x r source, Assigns x r t → ¬ Source.Denotes r source := by
  rw [Option.eq_none_iff_forall_ne_some]
  constructor
  · intro h x r source hx hr
    exact h _ (assignment?_eq_some_iff.2 ⟨x, r, source, splitTarget?_of_assigns hx hr.head?,
      Source.ofText?_eq_some_iff.2 hr, rfl⟩)
  · intro h st hst
    obtain ⟨x, r, source, hx, hr, -⟩ := assignment?_eq_some_iff.1 hst
    exact h x r source (assigns_of_splitTarget? hx) (Source.ofText?_eq_some_iff.1 hr)

theorem assignment?_of_not_mem (h : '=' ∉ t) : assignment? t = none :=
  assignment?_eq_none_iff.2 fun _ _ _ hx => absurd hx.mem h

theorem shape_ofTrimmed (t : Text) : Shape t (ofTrimmed t) := by
  unfold ofTrimmed
  split
  · next h => exact .query h
  · next hname =>
    split
    · next st hst =>
      obtain ⟨x, r, source, hx, hr, rfl⟩ := assignment?_eq_some_iff.1 hst
      exact .assign (assigns_of_splitTarget? hx) (Source.ofText?_eq_some_iff.1 hr)
    · next hnone =>
      split
      · next heq => exact .badAssignment heq (assignment?_eq_none_iff.1 hnone)
      · next heq =>
        split
        · next hempty => exact .empty (List.isEmpty_iff.1 hempty)
        · next hempty =>
          split
          · next hslash => exact .command heq hslash
          · next hslash =>
            exact .expression heq (Bool.eq_false_iff.2 hname) (mt List.isEmpty_iff.2 hempty) hslash

/-- A text is classified by its shape. -/
theorem ofTrimmed_eq_iff : ofTrimmed t = st ↔ Shape t st := by
  refine ⟨fun h => h ▸ shape_ofTrimmed t, fun h => ?_⟩
  cases h with
  | query h => rw [ofTrimmed, if_pos h]
  | assign hx hr => exact ofTrimmed_eq_assign_iff.2 ⟨_, hx, hr⟩
  | badAssignment heq h =>
    have hname : ¬ t.isName = true := fun hname => not_mem_of_isName hname heq
    rw [ofTrimmed, if_neg hname, assignment?_eq_none_iff.2 h]
    exact if_pos heq
  | empty h =>
    rw [h]
    rfl
  | command heq h =>
    obtain ⟨u, rfl⟩ := List.head?_eq_some_iff.1 h
    rw [ofTrimmed, assignment?_of_not_mem heq]
    simp [Text.isName, heq]
  | expression heq hname hne h =>
    rw [ofTrimmed, assignment?_of_not_mem heq]
    simp [hname, heq, hne, h]

/-! ## Assignments -/

/-- A name, a sign of equality, at most one sign and a numeral, with separators around the sign of
equality. -/
def AssignsLiteral (x : Name) (v : Int) (t : Text) : Prop :=
  ∃ (sign : Option Sign) (ds : Text), ds.isNumeral = true ∧
    v = (sign.getD .plus).apply (Numeral.value ds) ∧
    Assigns x ((sign.map Sign.symbol).toList ++ ds) t

/-- A name, a sign of equality, at most one sign and a name, with separators around the sign of
equality. -/
def AssignsCopy (x : Name) (s : Sign) (y : Name) (t : Text) : Prop :=
  ∃ sign : Option Sign, y.isName = true ∧ s = sign.getD .plus ∧
    Assigns x ((sign.map Sign.symbol).toList ++ y) t

/-- A source is a numeral or a name, after at most one sign. -/
theorem denotes_iff {source : Source} : Source.Denotes r source ↔
    ∃ (sign : Option Sign) (u : Text), r = (sign.map Sign.symbol).toList ++ u ∧
      (u.isNumeral = true ∧ source = .literal ((sign.getD .plus).apply (Numeral.value u)) ∨
        u.isName = true ∧ source = .copy (sign.getD .plus) u) := by
  have hone (s : Sign) : Infix.netSign [s] = s := Sign.mul_plus s
  constructor
  · rintro (@⟨signs, u, hs, hu⟩ | @⟨signs, u, hs, hu⟩)
    all_goals match signs, hs with
    | [], _ => exact ⟨none, u, rfl, by simp [hu, Infix.netSign]⟩
    | [s], _ => exact ⟨some s, u, rfl, by simp [hu, hone]⟩
  · rintro ⟨sign, u, rfl, ⟨hu, rfl⟩ | ⟨hu, rfl⟩⟩
    · cases sign with
      | none => exact @Source.Denotes.literal [] u (by simp) hu
      | some s =>
        have h := @Source.Denotes.literal [s] u (by simp) hu
        rwa [hone] at h
    · cases sign with
      | none => exact @Source.Denotes.copy [] u (by simp) hu
      | some s =>
        have h := @Source.Denotes.copy [s] u (by simp) hu
        rwa [hone] at h

theorem assignsLiteral_iff {v : Int} :
    AssignsLiteral x v t ↔ ∃ r, Assigns x r t ∧ Source.Denotes r (.literal v) := by
  simp only [denotes_iff]
  constructor
  · rintro ⟨sign, ds, hds, rfl, hx⟩
    exact ⟨_, hx, sign, ds, rfl, .inl ⟨hds, rfl⟩⟩
  · rintro ⟨_, hx, sign, ds, rfl, ⟨hds, hv⟩ | ⟨-, hv⟩⟩
    · exact ⟨sign, ds, hds, Source.literal.inj hv, hx⟩
    · cases hv

theorem assignsCopy_iff {s : Sign} {y : Name} :
    AssignsCopy x s y t ↔ ∃ r, Assigns x r t ∧ Source.Denotes r (.copy s y) := by
  simp only [denotes_iff]
  constructor
  · rintro ⟨sign, hy, rfl, hx⟩
    exact ⟨_, hx, sign, y, rfl, .inr ⟨hy, rfl⟩⟩
  · rintro ⟨_, hx, sign, u, rfl, ⟨-, hv⟩ | ⟨hu, hv⟩⟩
    · cases hv
    · obtain ⟨rfl, rfl⟩ := Source.copy.inj hv
      exact ⟨sign, hu, rfl, hx⟩

/-! ## Kinds of lines -/

theorem shape_query_iff : Shape t (.query x) ↔ t = x ∧ x.isName = true := by
  constructor
  · intro h
    cases h with
    | query h => exact ⟨rfl, h⟩
  · rintro ⟨rfl, h⟩
    exact .query h

theorem shape_assign_iff {source : Source} :
    Shape t (.assign x source) ↔ ∃ r, Assigns x r t ∧ Source.Denotes r source := by
  constructor
  · intro h
    cases h with
    | assign hx hr => exact ⟨_, hx, hr⟩
  · rintro ⟨r, hx, hr⟩
    exact .assign hx hr

theorem shape_badAssignment_iff : Shape t .badAssignment ↔
    '=' ∈ t ∧ (∀ x v, ¬ AssignsLiteral x v t) ∧ ∀ x s y, ¬ AssignsCopy x s y t := by
  simp only [assignsLiteral_iff, assignsCopy_iff]
  constructor
  · intro h
    cases h with
    | badAssignment heq h =>
      exact ⟨heq, fun x v ⟨r, hx, hr⟩ => h x r _ hx hr, fun x s y ⟨r, hx, hr⟩ => h x r _ hx hr⟩
  · rintro ⟨heq, hliteral, hcopy⟩
    refine .badAssignment heq fun x r source hx hr => ?_
    cases source with
    | literal v => exact hliteral x v ⟨r, hx, hr⟩
    | copy s y => exact hcopy x s y ⟨r, hx, hr⟩

theorem shape_command_iff {c : Command} :
    Shape t (.command c) ↔ t.head? = some '/' ∧ '=' ∉ t ∧ c.Named t := by
  rw [← Command.ofLine_eq_iff]
  constructor
  · intro h
    cases h with
    | command heq h => exact ⟨h, heq, rfl⟩
  · rintro ⟨h, heq, rfl⟩
    exact .command heq h

theorem shape_expression_iff {u : Text} : Shape t (.expression u) ↔
    t = u ∧ u.isName = false ∧ '=' ∉ u ∧ u ≠ [] ∧ u.head? ≠ some '/' := by
  constructor
  · intro h
    cases h with
    | expression heq hname hne h => exact ⟨rfl, hname, heq, hne, h⟩
  · rintro ⟨rfl, hname, heq, hne, h⟩
    exact .expression heq hname hne h

/-- The kind of a line and what it asks for can be told from the line without the blanks around
it. -/
theorem classify_eq_iff (line : Text) :
    (∀ x, classify line = .query x ↔ line.trim = x ∧ x.isName = true) ∧
    (∀ x v, classify line = .assign x (.literal v) ↔ AssignsLiteral x v line.trim) ∧
    (∀ x s y, classify line = .assign x (.copy s y) ↔ AssignsCopy x s y line.trim) ∧
    (classify line = .badAssignment ↔ '=' ∈ line.trim ∧
      (∀ x v, ¬ AssignsLiteral x v line.trim) ∧ ∀ x s y, ¬ AssignsCopy x s y line.trim) ∧
    (classify line = .empty ↔ line.trim = []) ∧
    (∀ c, classify line = .command c ↔
      line.trim.head? = some '/' ∧ '=' ∉ line.trim ∧ c.Named line.trim) ∧
    ∀ u, classify line = .expression u ↔
      line.trim = u ∧ u.isName = false ∧ '=' ∉ u ∧ u ≠ [] ∧ u.head? ≠ some '/' := by
  have hshape {st : Statement} : classify line = st ↔ Shape line.trim st := ofTrimmed_eq_iff
  simp only [hshape]
  refine ⟨fun x => shape_query_iff, fun x v => ?_, fun x s y => ?_, shape_badAssignment_iff,
    ⟨fun h => ?_, .empty⟩, fun c => shape_command_iff, fun u => shape_expression_iff⟩
  · rw [shape_assign_iff, assignsLiteral_iff]
  · rw [shape_assign_iff, assignsCopy_iff]
  · cases h with
    | empty h => exact h

end Statement

end LineCalc
