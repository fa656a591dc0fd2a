import LineCalc.Proofs.Shapes
import LineCalc.Session.Renaming

/-!
# Lines with other names

With another name in place of each name a text has the same shape: the same characters outside of
names (`filter_rename`), and names in the same places.  So what skips characters that are no letters
skips the same ones (`dropWhile_rename`, `trim_rename`), and the name at the start is the renamed
one (`takeWhile_rename`).  Hence a line asks for the same as before, with the names renamed
(`classify_renameLine`).
-/

namespace LineCalc

namespace Text

/-- A text is empty, or begins with a character that is no letter, or with a name that ends before
the next such character. -/
@[elab_as_elim] theorem namesInduction {motive : Text → Prop} (nil : motive [])
    (char : ∀ c t, c.isAlpha = false → motive t → motive (c :: t))
    (name : ∀ x t, x.isName = true → (∀ c ∈ t.head?, c.isAlpha = false) → motive t →
      motive (x ++ t)) (t : Text) : motive t := by
  -- A letter joins the name before it, so the induction carries the name that has been begun.
  suffices h : motive t ∧ ∀ x : Text, x.isName = true → motive (x ++ t) from h.1
  induction t with
  | nil => exact ⟨nil, fun x hx => name x [] hx (fun c hc => by cases hc) nil⟩
  | cons c t ih =>
    cases hc : c.isAlpha with
    | false =>
      have hct := char c t hc ih.1
      exact ⟨hct, fun x hx => name x _ hx (fun d hd => Option.some.inj hd ▸ hc) hct⟩
    | true =>
      have hletter {x : Text} (hx : ∀ d ∈ x, d.isAlpha = true) : motive (x ++ [c] ++ t) := by
        refine ih.2 _ (isName_iff.2 ⟨by simp, fun d hd => ?_⟩)
        obtain hd | hd := List.mem_append.1 hd
        · exact hx d hd
        · rwa [List.mem_singleton.1 hd]
      refine ⟨hletter (x := []) (by simp), fun x hx => ?_⟩
      have := hletter (isName_iff.1 hx).2
      rwa [List.append_assoc] at this

theorem exists_cons_of_isName {x : Name} (hx : x.isName = true) :
    ∃ c y, x = c :: y ∧ c.isAlpha = true := by
  obtain ⟨hne, ha⟩ := isName_iff.1 hx
  obtain ⟨c, y, rfl⟩ := List.exists_cons_of_ne_nil hne
  exact ⟨c, y, rfl, ha c List.mem_cons_self⟩

/-! ## Blanks -/

theorem isBlank_eq_false_of_isAlpha {c : Char} (h : c.isAlpha = true) : isBlank c = false :=
  Token.isBlank_eq_false_of_isPart (Token.isPart_of_isAlpha h)

theorem isSeparator_eq_false_of_isAlpha {c : Char} (h : c.isAlpha = true) :
    isSeparator c = false :=
  isSeparator_eq_false_of_not_isBlank (isBlank_eq_false_of_isAlpha h)

theorem trimEnd_of_all {t : Text} (h : t.all isBlank = true) : trimEnd t = [] := by
  rw [← List.nil_append t, Sign.trimEnd_append, if_pos h]
  rfl

theorem trimEnd_cons (c : Char) (t : Text) :
    trimEnd (c :: t) = if (c :: t).all isBlank then [] else c :: trimEnd t := by
  split
  · next h => exact trimEnd_of_all h
  · next h =>
    rw [← List.singleton_append, Sign.trimEnd_append]
    split
    · next ht =>
      have hc : isBlank c = false := by simpa [ht] using h
      rw [trimEnd_of_all ht]
      simp [trimEnd, hc]
    · rfl

theorem trimEnd_name {x : Name} (hx : x.isName = true) (t : Text) :
    trimEnd (x ++ t) = x ++ trimEnd t := by
  rw [Sign.trimEnd_append]
  split
  · next ht => rw [trimEnd_of_all ht, List.append_nil]; exact Sign.trimEnd_spelling (.name hx) []
  · rfl

/-! ## What a renaming keeps -/

variable {r : Name → Name} (hr : ∀ x, x.isName = true → (r x).isName = true) {p : Char → Bool}

theorem head?_rename {t : Text} (ht : ∀ c ∈ t.head?, c.isAlpha = false) :
    (mapNames r t).head? = t.head? := by
  cases t with
  | nil => rfl
  | cons c t => rw [mapNames_cons (ht c rfl)]; rfl

theorem mapNames_of_isName {x : Name} (hx : x.isName = true) : mapNames r x = r x := by
  have h := mapNames_name (f := r) hx (t := []) fun c hc => by cases hc
  simpa [mapNames, pieces] using h

theorem mapNames_of_isNumeral {ds : Text} (h : ds.isNumeral = true) : mapNames r ds = ds :=
  mapNames_of_not_isAlpha fun c hc =>
    Token.isAlpha_eq_false_of_isDigit ((isNumeral_iff.1 h).2 c hc)

include hr

theorem head?_rename_eq_some_iff {c : Char} (hc : c.isAlpha = false) (t : Text) :
    (mapNames r t).head? = some c ↔ t.head? = some c := by
  have hname {x : Name} (hx : x.isName = true) (u : Text) : (x ++ u).head? ≠ some c := by
    obtain ⟨d, y, rfl, hd⟩ := exists_cons_of_isName hx
    intro h
    rw [Option.some.inj h, hc] at hd
    cases hd
  induction t using namesInduction with
  | nil => rfl
  | char d t hd ih => rw [mapNames_cons hd]; rfl
  | name x t hx ht ih =>
    rw [mapNames_name hx ht]
    exact iff_of_false (hname (hr x hx) _) (hname hx _)

theorem isEmpty_rename (t : Text) : (mapNames r t).isEmpty = t.isEmpty := by
  induction t using namesInduction with
  | nil => rfl
  | char c t hc ih => rw [mapNames_cons hc]; rfl
  | name x t hx ht ih =>
    rw [mapNames_name hx ht]
    obtain ⟨c, y, rfl, -⟩ := exists_cons_of_isName hx
    obtain ⟨d, z, hz, -⟩ := exists_cons_of_isName (hr _ hx)
    rw [hz]
    rfl

/-! ## Characters that are no letters -/

section

variable (hp : ∀ c, c.isAlpha = true → p c = false)
include hp

theorem filter_rename (t : Text) : (mapNames r t).filter p = t.filter p := by
  have hname {x : Name} (hx : x.isName = true) (u : Text) : (x ++ u).filter p = u.filter p := by
    rw [List.filter_append, List.filter_eq_nil_iff.2, List.nil_append]
    exact fun c hc => by simp [hp c ((isName_iff.1 hx).2 c hc)]
  induction t using namesInduction with
  | nil => rfl
  | char c t hc ih => rw [mapNames_cons hc, List.filter_cons, List.filter_cons, ih]
  | name x t hx ht ih => rw [mapNames_name hx ht, hname (hr x hx), hname hx, ih]

theorem mem_rename {c : Char} (hc : p c = true) (t : Text) : c ∈ mapNames r t ↔ c ∈ t := by
  have hfilter : c ∈ (mapNames r t).filter p ↔ c ∈ t.filter p := by rw [filter_rename hr hp]
  rwa [List.mem_filter, List.mem_filter, and_iff_left hc, and_iff_left hc] at hfilter

theorem all_rename (t : Text) : (mapNames r t).all p = t.all p := by
  have hname {x : Name} (hx : x.isName = true) (u : Text) : (x ++ u).all p = false := by
    obtain ⟨c, y, rfl, hc⟩ := exists_cons_of_isName hx
    simp [hp c hc]
  induction t using namesInduction with
  | nil => rfl
  | char c t hc ih => rw [mapNames_cons hc, List.all_cons, List.all_cons, ih]
  | name x t hx ht ih => rw [mapNames_name hx ht, hname (hr x hx), hname hx]

theorem dropWhile_rename (t : Text) :
    (mapNames r t).dropWhile p = mapNames r (t.dropWhile p) := by
  have hname {x : Name} (hx : x.isName = true) (u : Text) : (x ++ u).dropWhile p = x ++ u := by
    obtain ⟨c, y, rfl, hc⟩ := exists_cons_of_isName hx
    simp [hp c hc]
  induction t using namesInduction with
  | nil => rfl
  | char c t hc ih =>
    rw [mapNames_cons hc, List.dropWhile_cons, List.dropWhile_cons, ih]
    split
    · rfl
    · rw [mapNames_cons hc]
  | name x t hx ht ih => rw [mapNames_name hx ht, hname (hr x hx), hname hx, mapNames_name hx ht]

end

/-! ## The name at the start -/

theorem takeWhile_rename (t : Text) :
    (mapNames r t).takeWhile Char.isAlpha =
      if (t.takeWhile Char.isAlpha).isEmpty then [] else r (t.takeWhile Char.isAlpha) := by
  induction t using namesInduction with
  | nil => rfl
  | char c t hc ih => simp [mapNames_cons hc, hc]
  | name x t hx ht ih =>
    obtain ⟨hne, ha⟩ := isName_iff.1 hx
    rw [mapNames_name hx ht, Token.takeWhile_append_eq (isName_iff.1 (hr x hx)).2,
      Token.takeWhile_append_eq ha ht, if_neg (by simpa using hne)]
    rwa [head?_rename ht]

theorem dropWhile_isAlpha_rename (t : Text) :
    (mapNames r t).dropWhile Char.isAlpha = mapNames r (t.dropWhile Char.isAlpha) := by
  induction t using namesInduction with
  | nil => rfl
  | char c t hc ih => simp [mapNames_cons hc, hc]
  | name x t hx ht ih =>
    rw [mapNames_name hx ht, Token.dropWhile_append_eq (isName_iff.1 (hr x hx)).2,
      Token.dropWhile_append_eq (isName_iff.1 hx).2 ht]
    rwa [head?_rename ht]

/-! ## Names, numerals and the blanks at the end -/

theorem isName_rename (t : Text) : (mapNames r t).isName = t.isName := by
  induction t using namesInduction with
  | nil => rfl
  | char c t hc ih => simp [mapNames_cons hc, isName, hc]
  | name x t hx ht ih =>
    rw [mapNames_name hx ht]
    cases t with
    | nil => simp [mapNames, pieces, hx, hr x hx]
    | cons c t =>
      rw [mapNames_cons (ht c rfl)]
      simp [isName, ht c rfl]

theorem isNumeral_rename (t : Text) : (mapNames r t).isNumeral = t.isNumeral := by
  have hdigit : ∀ c : Char, c.isAlpha = true → c.isDigit = false := fun c hc => by
    rw [Bool.eq_false_iff]
    intro hd
    rw [Token.isAlpha_eq_false_of_isDigit hd] at hc
    cases hc
  rw [isNumeral, isNumeral, isEmpty_rename hr, all_rename hr hdigit]

theorem trimEnd_rename (t : Text) : (mapNames r t).trimEnd = mapNames r t.trimEnd := by
  induction t using namesInduction with
  | nil => rfl
  | char c t hc ih =>
    have hall := all_rename hr (p := isBlank) (fun _ => isBlank_eq_false_of_isAlpha) (c :: t)
    rw [mapNames_cons hc] at hall ⊢
    rw [trimEnd_cons, trimEnd_cons, hall, ih]
    split
    · rfl
    · rw [mapNames_cons hc]
  | name x t hx ht ih =>
    have hhead : ∀ c ∈ (trimEnd t).head?, c.isAlpha = false := by
      cases hall : t.all isBlank with
      | true => rw [trimEnd_of_all hall]; exact fun c hc => by cases hc
      | false => rwa [Sign.head?_trimEnd hall]
    rw [mapNames_name hx ht, trimEnd_name (hr x hx), trimEnd_name hx, ih, mapNames_name hx hhead]

theorem trim_rename (t : Text) : (mapNames r t).trim = mapNames r t.trim := by
  rw [trim, trimStart, dropWhile_rename hr fun _ => isBlank_eq_false_of_isAlpha, trimEnd_rename hr]
  rfl

end Text

/-- The name that a source copies. -/
def Source.names : Source → List Name
  | literal _ => []
  | copy _ x => [x]

namespace Statement

open Text

variable {r : Name → Name}

theorem splitTarget?_of_equals {t u : Text}
    (h : (t.dropWhile Char.isAlpha).dropWhile isSeparator = '=' :: u) :
    splitTarget? t = if (t.takeWhile Char.isAlpha).isEmpty then none
      else some (t.takeWhile Char.isAlpha, u.dropWhile isSeparator) := by
  simp only [splitTarget?, h]

theorem splitTarget?_eq_none {t : Text}
    (h : ((t.dropWhile Char.isAlpha).dropWhile isSeparator).head? ≠ some '=') :
    splitTarget? t = none := by
  unfold splitTarget?
  split
  · next u hu => rw [hu] at h; exact absurd rfl h
  · rfl

variable (hr : ∀ x, x.isName = true → (r x).isName = true)
include hr

theorem splitSign_rename (t : Text) :
    Source.splitSign (mapNames r t) =
      ((Source.splitSign t).1, mapNames r (Source.splitSign t).2) := by
  have hname {x : Name} (hx : x.isName = true) (u : Text) :
      Source.splitSign (x ++ u) = (.plus, x ++ u) := by
    obtain ⟨c, y, rfl, -⟩ := exists_cons_of_isName hx
    refine Source.splitSign_of_head? fun d hd => ?_
    obtain rfl := Option.some.inj hd
    exact (Token.Spells.name hx).ofSymbol?_eq_none rfl c List.mem_cons_self
  cases t using namesInduction with
  | nil => rfl
  | char c t hc _ =>
    rw [mapNames_cons hc, Source.splitSign, Source.splitSign]
    split
    · rfl
    · rw [mapNames_cons hc]
  | name x t hx ht _ => rw [mapNames_name hx ht, hname (hr x hx), hname hx, mapNames_name hx ht]

theorem ofText?_rename (t : Text) :
    Source.ofText? (mapNames r t) = (Source.ofText? t).map (Source.rename r) := by
  simp only [Source.ofText?, splitSign_rename hr, isNumeral_rename hr, isName_rename hr]
  split
  · next hn => rw [mapNames_of_isNumeral hn]; rfl
  · split
    · next hx => rw [mapNames_of_isName hx]; rfl
    · rfl

theorem splitTarget?_rename (t : Text) :
    splitTarget? (mapNames r t) = (splitTarget? t).map fun e => (r e.1, mapNames r e.2) := by
  have hrest : ((mapNames r t).dropWhile Char.isAlpha).dropWhile isSeparator =
      mapNames r ((t.dropWhile Char.isAlpha).dropWhile isSeparator) := by
    rw [dropWhile_isAlpha_rename hr, dropWhile_rename hr fun _ => isSeparator_eq_false_of_isAlpha]
  by_cases hu : ((t.dropWhile Char.isAlpha).dropWhile isSeparator).head? = some '='
  · obtain ⟨v, hv⟩ := List.head?_eq_some_iff.1 hu
    rw [hv, mapNames_cons rfl] at hrest
    rw [splitTarget?_of_equals hrest, splitTarget?_of_equals hv, takeWhile_rename hr,
      dropWhile_rename hr fun _ => isSeparator_eq_false_of_isAlpha]
    by_cases hx : (t.takeWhile Char.isAlpha).isEmpty
    · simp [hx]
    · have hname : Text.isName (t.takeWhile Char.isAlpha) = true :=
        isName_iff.2 ⟨by simpa using hx, fun c hc => List.mem_takeWhile_imp hc⟩
      have hne := (isName_iff.1 (hr _ hname)).1
      simp [hx, hne]
  · rw [splitTarget?_eq_none hu, splitTarget?_eq_none]
    · rfl
    · rw [hrest]
      exact mt (head?_rename_eq_some_iff hr rfl _).1 hu

theorem assignment?_rename (t : Text) :
    assignment? (mapNames r t) = (assignment? t).map (rename r) := by
  simp only [assignment?, splitTarget?_rename hr]
  cases splitTarget? t with
  | none => rfl
  | some e =>
    simp only [Option.map_some, Option.bind_eq_bind, Option.bind_some, ofText?_rename hr]
    cases Source.ofText? e.2 <;> rfl

theorem ofTrimmed_rename {t : Text} (h : ¬ (t.head? = some '/' ∧ '=' ∉ t)) :
    ofTrimmed (mapNames r t) = (ofTrimmed t).rename r := by
  have hmem : '=' ∈ mapNames r t ↔ '=' ∈ t :=
    mem_rename hr (p := (· = '=')) (fun c hc => by rw [decide_eq_false_iff_not]; rintro rfl; cases hc)
      (by simp) t
  rw [ofTrimmed, ofTrimmed, isName_rename hr, assignment?_rename hr]
  split
  · next hx => rw [mapNames_of_isName hx]; rfl
  · cases assignment? t with
    | some st => rfl
    | none =>
      simp only [Option.map_none, hmem, isEmpty_rename hr, head?_rename_eq_some_iff hr (c := '/') rfl]
      split
      · rfl
      · next heq =>
        split
        · rfl
        · rw [if_neg fun hs => h ⟨hs, heq⟩, if_neg fun hs => h ⟨hs, heq⟩]
          rfl

/-- A renamed line asks for the same with the names renamed. -/
theorem classify_renameLine (line : Text) :
    classify (Session.renameLine r line) = (classify line).rename r := by
  unfold Session.renameLine
  split
  · next h => rw [classify, ofTrimmed_eq_iff.2 (.command h.2 h.1)]; rfl
  · next h => rw [classify, trim_rename hr, ofTrimmed_rename hr h]; rfl

/-! ## The names of a statement -/

/-- The names in a statement, apart from those in the text of an expression. -/
def names : Statement → List Name
  | query x => [x]
  | assign x source => x :: source.names
  | _ => []

omit hr in
/-- The names that a line shows, assigns to or copies are names in the sense of `Text.isName`. -/
theorem isName_of_mem_names_classify (line : Text) :
    ∀ x ∈ (classify line).names, x.isName = true := by
  cases h : classify line with
  | query x =>
    intro y hy
    rw [List.mem_singleton.1 hy]
    exact (shape_query_iff.1 (ofTrimmed_eq_iff.1 h)).2
  | assign x source =>
    obtain ⟨u, ⟨hx, -⟩, hu⟩ := classify_eq_assign_iff.1 h
    cases hu with
    | literal => simpa [names, Source.names] using hx
    | copy _ hy => simpa [names, Source.names] using ⟨hx, hy⟩
  | empty => simp [names]
  | badAssignment => simp [names]
  | command c => simp [names]
  | expression t => simp [names]

end Statement

end LineCalc
