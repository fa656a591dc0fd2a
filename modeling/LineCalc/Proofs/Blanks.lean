import LineCalc.Proofs.RenamedLine

/-!
# Lines with other blanks

Blanks around a line and in an expression are all alike: with spaces in their place the expression
has the same collapsed form (`collapse_spaced`) and so the same value (`value_spaced`).  Around the
sign of equality of an assignment only separators count, so that a line with another blank there is
no assignment.  These are the lines that a session answers in another way when each blank of them is
replaced with a space, and there are no others (`respond_spaced_iff`).
-/

namespace LineCalc

open Token

namespace Text

variable {p : Char → Bool} {t u : Text}

/-! ## Spaces in place of blanks -/

theorem spaced_cons (c : Char) (t : Text) :
    spaced (c :: t) = (if isBlank c then ' ' else c) :: spaced t := rfl

theorem spaced_append (t u : Text) : spaced (t ++ u) = spaced t ++ spaced u := List.map_append

/-- To a class of characters that has all blanks, or none of them, blanks are alike. -/
def Alike (p : Char → Bool) : Prop := ∀ c, isBlank c = true → p c = p ' '

theorem alike_isBlank : Alike isBlank := fun _ h => h

theorem alike_of_visible (h : ∀ c, p c = true → isBlank c = false) : Alike p := by
  have hnot {c : Char} (hc : isBlank c = true) : p c = false := by
    rw [Bool.eq_false_iff]
    intro hp
    rw [h c hp] at hc
    cases hc
  exact fun c hc => (hnot hc).trans (hnot rfl).symm

theorem alike_isAlpha : Alike Char.isAlpha :=
  alike_of_visible fun _ h => isBlank_eq_false_of_isPart (isPart_of_isAlpha h)

theorem Alike.eq (hp : Alike p) (c : Char) : p (if isBlank c then ' ' else c) = p c := by
  split
  · next hc => exact (hp c hc).symm
  · rfl

theorem all_spaced_eq (hp : Alike p) (t : Text) : (spaced t).all p = t.all p := by
  rw [spaced, List.all_map]
  exact congrArg t.all (funext hp.eq)

theorem dropWhile_spaced (hp : Alike p) (t : Text) :
    (spaced t).dropWhile p = spaced (t.dropWhile p) := by
  rw [spaced, List.dropWhile_map]
  exact congrArg (fun q => spaced (t.dropWhile q)) (funext hp.eq)

theorem trim_spaced (t : Text) : trim (spaced t) = spaced t.trim := by
  have hreverse (t : Text) : (spaced t).reverse = spaced t.reverse := List.map_reverse.symm
  rw [trim, trimStart, dropWhile_spaced alike_isBlank, trimEnd, hreverse,
    dropWhile_spaced alike_isBlank, hreverse]
  rfl

theorem isEmpty_spaced (t : Text) : (spaced t).isEmpty = t.isEmpty := List.isEmpty_map

theorem isName_spaced (t : Text) : (spaced t).isName = t.isName := by
  rw [isName, isName, isEmpty_spaced, all_spaced_eq alike_isAlpha]

/-- A text without blanks is no other text with spaces in place of its blanks. -/
theorem eq_of_spaced_eq (h : spaced t = u) (hu : ∀ c ∈ u, isBlank c = false) : t = u := by
  subst h
  refine (List.map_id' t).symm.trans (List.map_congr_left fun c hc => ?_)
  have hb := hu _ (List.mem_map_of_mem hc)
  split at hb
  · cases hb
  · next hc => exact (if_neg hc).symm

theorem mem_spaced_iff {c : Char} (hc : isBlank c = false) : c ∈ spaced t ↔ c ∈ t := by
  constructor
  · intro h
    obtain ⟨d, hd, hdc⟩ := List.mem_map.1 h
    split at hdc
    · subst hdc
      cases hc
    · rwa [← hdc]
  · intro h
    exact List.mem_map.2 ⟨c, h, if_neg (by simp [hc])⟩

theorem head?_spaced_iff {c : Char} (hc : isBlank c = false) :
    (spaced t).head? = some c ↔ t.head? = some c := by
  cases t with
  | nil => rfl
  | cons d t =>
    rw [spaced_cons, List.head?_cons, List.head?_cons, Option.some_inj, Option.some_inj]
    split
    · next hd =>
      constructor
      · rintro rfl
        cases hc
      · rintro rfl
        rw [hd] at hc
        cases hc
    · rfl

end Text

open Text

/-! ## Expressions -/

theorem Sign.collapseFrom_spaced (g : Gap) (t : Text) :
    collapseFrom g (spaced t) = collapseFrom g t := by
  induction t generalizing g with
  | nil => rfl
  | cons c t ih =>
    rw [spaced_cons]
    split
    · next hc =>
      rw [collapseFrom_blank rfl rfl, collapseFrom_blank (ofSymbol?_eq_none_of_isBlank hc) hc, ih, ih]
    · simp only [collapseFrom, ih]

theorem Sign.collapse_spaced (t : Text) : collapse (spaced t) = collapse t := by
  rw [collapse, trim_spaced, collapseFrom_spaced]
  rfl

theorem Expression.value_spaced (s : Store) (t : Text) : value s (spaced t) = value s t := by
  rw [value, Sign.collapse_spaced]
  rfl

namespace Statement

variable {x y : Name} {w w' v v' r q t line : Text} {source source' : Source}

/-! ## Assignments -/

/-- The texts that are an assignment to `x` from a source with the text `r`, but that the blanks `w`
and `w'` around the sign of equality may be any. -/
structure Resembles (x : Name) (w w' r t : Text) : Prop where
  isName : x.isName = true
  isBlank : ∀ c ∈ w ++ w', Text.isBlank c = true
  eq : t = x ++ (w ++ '=' :: (w' ++ r))

theorem assigns_iff :
    Assigns x r t ↔ ∃ w w', Resembles x w w' r t ∧ ∀ c ∈ w ++ w', isSeparator c = true := by
  constructor
  · rintro ⟨hx, w, w', hw, hw', ht⟩
    have hsep : ∀ c ∈ w ++ w', isSeparator c = true := fun c hc =>
      (List.mem_append.1 hc).elim (hw c) (hw' c)
    exact ⟨w, w', ⟨hx, fun c hc => isBlank_of_isSeparator (hsep c hc), ht⟩, hsep⟩
  · rintro ⟨w, w', ⟨hx, -, ht⟩, hsep⟩
    exact ⟨hx, w, w', fun c hc => hsep c (List.mem_append_left _ hc),
      fun c hc => hsep c (List.mem_append_right _ hc), ht⟩

/-- With spaces in place of its blanks the text is an assignment. -/
theorem Resembles.assigns_spaced (h : Resembles x w w' r t) (hr : ∀ c ∈ r, isPart c = true) :
    Assigns x r (spaced t) := by
  have hx : ∀ c ∈ x, isPart c = true := fun c hc => isPart_of_isAlpha ((isName_iff.1 h.isName).2 c hc)
  have hb {u : Text} (hu : ∀ c ∈ u, c ∈ w ++ w') : ∀ c ∈ spaced u, isSeparator c = true :=
    List.all_eq_true.1 (all_spaced (List.all_eq_true.2 fun c hc => h.isBlank c (hu c hc)))
  refine ⟨h.isName, spaced w, spaced w', hb fun _ => List.mem_append_left _,
    hb fun _ => List.mem_append_right _, ?_⟩
  rw [h.eq, spaced_append, spaced_append, spaced_cons, spaced_append, spaced_of_isPart hx,
    spaced_of_isPart hr]
  rfl

theorem exists_resembles_of_spaced (h : Assigns x r (spaced t)) (hr : ∀ c ∈ r, isPart c = true) :
    ∃ w w', Resembles x w w' r t := by
  obtain ⟨hx, w, w', hw, hw', ht⟩ := h
  obtain ⟨x₁, t₁, rfl, hx₁, ht₁⟩ := List.map_eq_append_iff.1 ht
  obtain ⟨w₁, t₂, rfl, hw₁, ht₂⟩ := List.map_eq_append_iff.1 ht₁
  obtain ⟨c, t₃, rfl, hc, ht₃⟩ := List.map_eq_cons_iff.1 ht₂
  obtain ⟨w₂, r₁, rfl, hw₂, hr₁⟩ := List.map_eq_append_iff.1 ht₃
  have hblank {u v : Text} (hu : spaced u = v) (hv : ∀ c ∈ v, isSeparator c = true) :
      ∀ c ∈ u, Text.isBlank c = true := by
    have hall : v.all Text.isBlank = true :=
      List.all_eq_true.2 fun c hc => isBlank_of_isSeparator (hv c hc)
    rw [← hu, all_spaced_eq alike_isBlank] at hall
    exact List.all_eq_true.1 hall
  obtain rfl : x₁ = x := eq_of_spaced_eq hx₁ (isBlank_of_isName hx)
  obtain rfl : r₁ = r := eq_of_spaced_eq hr₁ fun c hc => isBlank_eq_false_of_isPart (hr c hc)
  obtain rfl : c = '=' := by
    split at hc
    · cases hc
    · exact hc
  refine ⟨w₁, w₂, hx, fun d hd => ?_, rfl⟩
  exact (List.mem_append.1 hd).elim (hblank hw₁ hw d) (hblank hw₂ hw' d)

theorem classify_spaced_eq_assign_iff :
    classify (spaced line) = .assign x source ↔
      ∃ w w' r, Resembles x w w' r line.trim ∧ Source.Denotes r source := by
  rw [classify_eq_assign_iff, trim_spaced]
  constructor
  · rintro ⟨r, hx, hr⟩
    obtain ⟨w, w', h⟩ := exists_resembles_of_spaced hx hr.isPart
    exact ⟨w, w', r, h, hr⟩
  · rintro ⟨w, w', r, h, hr⟩
    exact ⟨r, h.assigns_spaced hr.isPart, hr⟩

/-- The blanks around the sign of equality can be read off the text. -/
theorem Resembles.blanks_eq (h : Resembles x w w' r t) (hr : Source.Denotes r source) :
    (t.dropWhile Char.isAlpha).takeWhile Text.isBlank = w ∧
      ((t.dropWhile Char.isAlpha).dropWhile Text.isBlank).tail.takeWhile Text.isBlank = w' := by
  obtain ⟨hx, hb, rfl⟩ := h
  have hw : ∀ c ∈ w, Text.isBlank c = true := fun c hc => hb c (List.mem_append_left _ hc)
  have hw' : ∀ c ∈ w', Text.isBlank c = true := fun c hc => hb c (List.mem_append_right _ hc)
  have hhead : ∀ c ∈ (w ++ '=' :: (w' ++ r)).head?, c.isAlpha = false := by
    intro c hc
    cases w with
    | nil => obtain rfl := Option.some.inj hc; rfl
    | cons d w =>
      obtain rfl := Option.some.inj hc
      exact isAlpha_eq_false_of_isBlank (hw d List.mem_cons_self)
  have heq : ∀ c ∈ ('=' :: (w' ++ r)).head?, Text.isBlank c = false := by
    intro c hc
    obtain rfl := Option.some.inj hc
    rfl
  have hsource : ∀ c ∈ r.head?, Text.isBlank c = false := fun c hc =>
    hr.isBlank_eq_false c (List.mem_of_mem_head? hc)
  rw [dropWhile_append_eq (isName_iff.1 hx).2 hhead, takeWhile_append_eq hw heq,
    dropWhile_append_eq hw heq]
  exact ⟨rfl, takeWhile_append_eq hw' hsource⟩

/-- A text with a sign of equality that is no assignment is a bad one. -/
theorem ofTrimmed_of_mem (heq : '=' ∈ t) (h : ∀ x source, ofTrimmed t ≠ .assign x source) :
    ofTrimmed t = .badAssignment :=
  ofTrimmed_eq_iff.2 (.badAssignment heq fun x _ source hx hr =>
    h x source (ofTrimmed_eq_iff.2 (.assign hx hr)))

theorem ofTrimmed_of_not_mem (heq : '=' ∉ t) :
    ofTrimmed t =
      if t.isName then .query t
      else if t.isEmpty then .empty
      else if t.head? = some '/' then .command (.ofLine t)
      else .expression t := by
  rw [ofTrimmed, assignment?_of_not_mem heq, if_neg heq]

theorem mem_of_resembles (h : Resembles x w w' r t) : '=' ∈ t := by
  rw [h.eq]
  simp

theorem classify_of_resembles (h : Resembles x w w' r line.trim) (hr : Source.Denotes r source)
    (hsep : ¬ ∀ c ∈ w ++ w', isSeparator c = true) : classify line = .badAssignment := by
  refine ofTrimmed_of_mem (mem_of_resembles h) fun y source' hy => hsep ?_
  obtain ⟨q, hassigns, hq⟩ := ofTrimmed_eq_assign_iff.1 hy
  obtain ⟨v, v', hv, hvsep⟩ := assigns_iff.1 hassigns
  obtain ⟨rfl, rfl⟩ := h.blanks_eq hr
  obtain ⟨rfl, rfl⟩ := hv.blanks_eq hq
  exact hvsep

theorem ofLine_spaced (t : Text) :
    Command.ofLine (spaced t) = Command.ofLine t ∨
      Command.ofLine (spaced t) = .unknown (spaced t) ∧ Command.ofLine t = .unknown t := by
  by_cases h : spaced t = t
  · exact Or.inl (congrArg Command.ofLine h)
  · have hne {u : Text} (hu : u.all isPart = true) : spaced t ≠ u ∧ t ≠ u := by
      have hu : ∀ c ∈ u, isPart c = true := List.all_eq_true.1 hu
      constructor
      · intro htu
        obtain rfl := eq_of_spaced_eq htu fun c hc => isBlank_eq_false_of_isPart (hu c hc)
        exact h htu
      · rintro rfl
        exact h (spaced_of_isPart hu)
    have hexit : spaced t ≠ "/exit".toList ∧ t ≠ "/exit".toList := hne rfl
    have hhelp : spaced t ≠ "/help".toList ∧ t ≠ "/help".toList := hne rfl
    have hlisting : spaced t ≠ "/variables".toList ∧ t ≠ "/variables".toList := hne rfl
    refine Or.inr ⟨?_, ?_⟩
    · rw [Command.ofLine, if_neg hexit.1, if_neg hhelp.1, if_neg hlisting.1]
    · rw [Command.ofLine, if_neg hexit.2, if_neg hhelp.2, if_neg hlisting.2]

/-- Without a sign of equality the spaces can only be seen in the line of an unknown command and in
the text of an expression. -/
theorem ofTrimmed_spaced (heq : '=' ∉ t) :
    ofTrimmed (spaced t) = ofTrimmed t ∨
      ofTrimmed (spaced t) = .command (.unknown (spaced t)) ∧ ofTrimmed t = .command (.unknown t) ∨
      ofTrimmed (spaced t) = .expression (spaced t) ∧ ofTrimmed t = .expression t := by
  have hmem : '=' ∉ spaced t := mt (mem_spaced_iff (by decide)).1 heq
  rw [ofTrimmed_of_not_mem heq, ofTrimmed_of_not_mem hmem, isName_spaced, isEmpty_spaced]
  simp only [head?_spaced_iff (c := '/') (by decide)]
  split
  · next hn =>
    rw [spaced_of_isPart fun c hc => isPart_of_isAlpha ((isName_iff.1 hn).2 c hc)]
    exact Or.inl rfl
  · split
    · exact Or.inl rfl
    · split
      · obtain hc | ⟨hs, ht⟩ := ofLine_spaced t
        · rw [hc]
          exact Or.inl rfl
        · rw [hs, ht]
          exact Or.inr (Or.inl ⟨rfl, rfl⟩)
      · exact Or.inr (Or.inr ⟨rfl, rfl⟩)

end Statement

namespace Session

open Statement

variable {s : Store} {t line : Text} {x : Name} {w w' r : Text} {source : Source}

/-! ## Lines -/

theorem respond_congr {line line' : Text} (h : classify line = classify line') :
    respond s line = respond s line' := by
  rw [respond, execute, h]
  rfl

theorem respond_of_badAssignment (h : classify line = .badAssignment) :
    respond s line = (.print "Invalid assignment".toList, s) := by
  rw [respond, execute, h]
  rfl

/-- The answer to an assignment is never that to a bad assignment. -/
theorem respond_of_assign (h : classify line = .assign x source) :
    (respond s line).1 ≠ .print "Invalid assignment".toList := by
  rw [respond, execute, h, run]
  cases sourceValue s source with
  | ok v =>
    intro hsilent
    cases hsilent
  | error e =>
    change Outcome.print "Unknown variable".toList ≠ _
    decide

theorem respond_of_unknown (h : classify line = .command (.unknown t)) :
    respond s line = (.print "Unknown command".toList, s) := by
  rw [respond, execute, h]
  rfl

theorem respond_of_expression (h : classify line = .expression t) :
    respond s line =
      match Expression.value s t with
      | .ok v => (.print (Numeral.ofInt v), s)
      | .error e => (.print (Fault.expression e).message, s) := by
  rw [respond, execute, h, run]
  cases Expression.value s t <;> rfl

/-- A line that spaces do not make an assignment is answered as with spaces in place of its
blanks. -/
theorem respond_spaced_of_ne (h : ∀ x source, classify (spaced line) ≠ .assign x source) :
    respond s (spaced line) = respond s line := by
  have hspaced : classify (spaced line) = ofTrimmed (spaced line.trim) := by
    rw [classify, trim_spaced]
  by_cases heq : '=' ∈ line.trim
  · have hline : ∀ x source, classify line ≠ .assign x source := by
      intro x source hx
      obtain ⟨r, hassigns, hr⟩ := classify_eq_assign_iff.1 hx
      obtain ⟨w, w', hw, -⟩ := assigns_iff.1 hassigns
      exact h x source (classify_spaced_eq_assign_iff.2 ⟨w, w', r, hw, hr⟩)
    have hmem : '=' ∈ spaced line.trim := (mem_spaced_iff (by decide)).2 heq
    rw [hspaced] at h
    exact respond_congr (hspaced.trans ((ofTrimmed_of_mem hmem h).trans
      (ofTrimmed_of_mem heq hline).symm))
  · obtain hsame | ⟨hs, ht⟩ | ⟨hs, ht⟩ := ofTrimmed_spaced heq
    · exact respond_congr (hspaced.trans hsame)
    · rw [respond_of_unknown (hspaced.trans hs), respond_of_unknown ht]
    · rw [respond_of_expression (hspaced.trans hs), respond_of_expression ht,
        Expression.value_spaced]

/-- With spaces in place of its blanks a line is answered in the same way, and leaves the same store,
unless it is an assignment but for a blank that is no separator beside the sign of equality.  Such a
line is a bad assignment, and with spaces it is a good one. -/
theorem respond_spaced_iff (s : Store) (line : Text) :
    respond s (spaced line) = respond s line ↔
      ∀ x w w' r source, Resembles x w w' r line.trim → Source.Denotes r source →
        ∀ c ∈ w ++ w', isSeparator c = true := by
  constructor
  · intro h x w w' r source hw hr
    by_contra hsep
    have hassign := classify_spaced_eq_assign_iff.2 ⟨w, w', r, hw, hr⟩
    refine respond_of_assign (s := s) hassign ?_
    rw [h, respond_of_badAssignment (classify_of_resembles hw hr hsep)]
  · intro h
    by_cases hassign : ∃ x source, classify (spaced line) = .assign x source
    · obtain ⟨x, source, hx⟩ := hassign
      obtain ⟨w, w', r, hw, hr⟩ := classify_spaced_eq_assign_iff.1 hx
      refine respond_congr (hx.trans (classify_eq_assign_iff.2 ⟨r, ?_, hr⟩).symm)
      exact assigns_iff.2 ⟨w, w', hw, h x w w' r source hw hr⟩
    · exact respond_spaced_of_ne fun x source hx => hassign ⟨x, source, hx⟩

/-- A no-break space before the sign of equality. -/
theorem exists_respond_spaced_ne :
    respond .empty "a\u00a0= 5".toList = (.print "Invalid assignment".toList, .empty) ∧
    respond .empty (spaced "a\u00a0= 5".toList) = (.silent, .ofList [(['a'], 5)]) ∧
    ¬ ∀ s line, respond s (spaced line) = respond s line := by
  have hbad : respond .empty "a\u00a0= 5".toList =
      (.print "Invalid assignment".toList, .empty) := by decide
  have hgood : respond .empty (spaced "a\u00a0= 5".toList) = (.silent, .ofList [(['a'], 5)]) := by
    decide
  refine ⟨hbad, hgood, fun h => ?_⟩
  cases hgood.symm.trans ((h .empty "a\u00a0= 5".toList).trans hbad)

end Session

end LineCalc
