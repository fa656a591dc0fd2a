import LineCalc.Proofs.Reading

/-!
# Signs and spacing

It makes no difference whether the signs of a text are collapsed before it is read or merged
afterwards (`scan_collapse`).  So a text keeps its value when what stands between two of its tokens
is written in another way (`value_between`): with other blanks, or with another run of signs that
has the same net sign.  `Text.Respelled` relates the texts that differ in this way at any number of
places.
-/

namespace LineCalc

namespace Text

/-- Blanks and signs only. -/
def isGap (g : Text) : Bool := g.all fun c => isBlank c || (Sign.ofSymbol? c).isSome

/-- The signs in a text. -/
def signs (g : Text) : List Sign := g.filterMap Sign.ofSymbol?

/-- Whether the end of one text and the start of another are parts of one numeral or of one name
when nothing stands between them. -/
def joins (t u : Text) : Bool :=
  match t.getLast?, u.head? with
  | some c, some d => c.isDigit && d.isDigit || c.isAlpha && d.isAlpha
  | _, _ => false

/-- The texts that differ only in what stands between tokens.  There may be other blanks, or another
run of signs with as many minus signs, but for an even number of them.  Nothing at all may stand in
place of blanks, or blanks in place of nothing, if no numeral or name is joined or split by it. -/
inductive Respelled : Text → Text → Prop
  | refl (t : Text) : Respelled t t
  | replace {v t u g g' : Text} (h : Respelled v (t ++ (g ++ u)))
      (hg : g.isGap = true) (hg' : g'.isGap = true)
      (hnil : g.signs = [] ↔ g'.signs = [])
      (hparity : g.signs.count .minus % 2 = g'.signs.count .minus % 2)
      (hne : g ≠ [] ∨ joins t u = false) (hne' : g' ≠ [] ∨ joins t u = false) :
      Respelled v (t ++ (g' ++ u))

end Text

namespace Token

variable {ks ls : List Token} {t u : Text}

/-! ## Runs of signs -/

theorem netSign_eq (ss : List Sign) :
    Infix.netSign ss = if ss.count .minus % 2 = 1 then .minus else .plus := by
  induction ss with
  | nil => rfl
  | cons s ss ih =>
    have hcons : Infix.netSign (s :: ss) = s * Infix.netSign ss := rfl
    rw [hcons, ih]
    cases s with
    | plus => rw [List.count_cons_of_ne (by decide), Sign.plus_mul]
    | minus =>
      rw [List.count_cons_self]
      by_cases h : ss.count .minus % 2 = 1
      · rw [if_pos h, if_neg (by omega)]
        rfl
      · rw [if_neg h, if_pos (by omega)]
        rfl

theorem mergeSigns_append_congr (h : mergeSigns ks = mergeSigns ls) (us : List Token) :
    mergeSigns (us ++ ks) = mergeSigns (us ++ ls) := by
  induction us with
  | nil => exact h
  | cons k us ih => simp only [List.cons_append, mergeSigns, ih]

/-- A run of signs is merged to its net sign, which joins the signs after it. -/
theorem mergeSigns_run (s : Sign) (ss : List Sign) (ks : List Token) :
    mergeSigns (Infix.signTokens (s :: ss) ++ ks) =
      absorb (Infix.netSign (s :: ss)) (mergeSigns ks) := by
  induction ss generalizing s with
  | nil =>
    have hnet : Infix.netSign [s] = s := Sign.mul_plus s
    rw [hnet]
    exact mergeSigns_sign s ks
  | cons r ss ih =>
    have hnet : Infix.netSign (s :: r :: ss) = s * Infix.netSign (r :: ss) := rfl
    rw [hnet, ← absorb_absorb, ← ih r]
    exact mergeSigns_sign s _

/-- A whole run of signs is merged to one sign: to a minus if it has an odd number of them. -/
theorem mergeSigns_signs {ss : List Sign} (hss : ss ≠ []) (hks : ∀ k ∈ ks.head?, k.sign? = none) :
    mergeSigns (Infix.signTokens ss ++ ks) =
      .op (if ss.count .minus % 2 = 1 then .sub else .add) :: mergeSigns ks := by
  obtain ⟨s, ss, rfl⟩ := List.exists_cons_of_ne_nil hss
  have hoperator : (Infix.netSign (s :: ss)).operator =
      if (s :: ss).count .minus % 2 = 1 then .sub else .add := by
    rw [netSign_eq]
    split <;> rfl
  rw [mergeSigns_run, ← hoperator]
  cases ks with
  | nil => rfl
  | cons k ks => rw [mergeSigns_cons (hks k rfl), absorb_cons _ (hks k rfl)]

/-- Runs of signs with the same net sign are merged to the same tokens. -/
theorem mergeSigns_congr {ss rs : List Sign} (hnil : ss = [] ↔ rs = [])
    (hnet : Infix.netSign ss = Infix.netSign rs) (ks : List Token) :
    mergeSigns (Infix.signTokens ss ++ ks) = mergeSigns (Infix.signTokens rs ++ ks) := by
  cases ss with
  | nil => rw [hnil.1 rfl]
  | cons s ss =>
    cases rs with
    | nil => cases hnil.2 rfl
    | cons r rs => rw [mergeSigns_run, mergeSigns_run, hnet]

/-! ## Reading before and after -/

theorem find?_spaced (t : Text) :
    (spaced t).find? (fun d => !Text.isBlank d && !isPart d) =
      t.find? (fun d => !Text.isBlank d && !isPart d) := by
  induction t with
  | nil => rfl
  | cons c t ih =>
    rw [spaced, List.map_cons, ← spaced, List.find?_cons, List.find?_cons, ih]
    cases hc : Text.isBlank c with
    | true => rfl
    | false => simp [hc]

theorem isSeparator_of_mem_spaced {d : Char} (h : d ∈ spaced t) (hd : Text.isBlank d = true) :
    Text.isSeparator d = true := by
  obtain ⟨c, -, rfl⟩ := List.mem_map.1 h
  split at hd
  · next hc => rw [if_pos hc]; rfl
  · next hc => exact absurd hd hc

/-- Collapsing the signs of a text and then reading it gives the tokens of the text, after a plus,
with their signs merged; and it fails where reading fails. -/
theorem scan_collapse (t : Text) :
    scan (Sign.collapse t) = (scan ('+' :: spaced t)).map mergeSigns := by
  cases hf : t.find? (fun d => !Text.isBlank d && !isPart d) with
  | some c =>
    have hsep : ∀ d ∈ '+' :: spaced t, Text.isBlank d = true → Text.isSeparator d = true := by
      intro d hd hb
      obtain rfl | hd := List.mem_cons.1 hd
      · cases hb
      · exact isSeparator_of_mem_spaced hd hb
    have hfind : ('+' :: spaced t).find? (fun d => !Text.isBlank d && !isPart d) = some c :=
      (find?_spaced t).trans hf
    rw [Expression.scan_collapse_of_unexpected hf, scan_of_unexpected hsep hfind]
    rfl
  | none =>
    obtain ⟨ks, hks⟩ := Expression.exists_rendering_of_find? hf
    have hplus : Rendering Text.isSeparator (.op .add :: ks) ('+' :: spaced t) :=
      (rendering_spaced hks).cons_tight (.op .add) fun _ => rfl
    rw [scan_of_rendering (Sign.rendering_collapse hks), scan_of_rendering hplus]
    rfl

/-! ## Renderings one after another -/

/-- Spellings that would be read as one token join. -/
theorem Spells.joins {k l : Token} (ht : Spells k t) (hu : Spells l u) (h : clings k l = true)
    (v : Text) : Text.joins t (u ++ v) = true := by
  have hends (p : Char → Bool) (hne : t ≠ []) (hne' : u ≠ []) (hp : ∀ c ∈ t, p c = true)
      (hp' : ∀ c ∈ u, p c = true) :
      ∃ c d, t.getLast? = some c ∧ (u ++ v).head? = some d ∧ p c = true ∧ p d = true := by
    obtain ⟨d, u, rfl⟩ := List.exists_cons_of_ne_nil hne'
    exact ⟨t.getLast hne, d, List.getLast?_eq_some_getLast hne, rfl, hp _ (List.getLast_mem hne),
      hp' d List.mem_cons_self⟩
  cases ht with
  | int ht =>
    cases hu <;> cases h
    next hu =>
    obtain ⟨hne, hd⟩ := Text.isNumeral_iff.1 ht
    obtain ⟨hne', hd'⟩ := Text.isNumeral_iff.1 hu
    obtain ⟨c, d, hc, hd, hcd, hdd⟩ := hends Char.isDigit hne hne' hd hd'
    simp [Text.joins, hc, hd, hcd, hdd]
  | name ht =>
    cases hu <;> cases h
    next hu =>
    obtain ⟨hne, ha⟩ := Text.isName_iff.1 ht
    obtain ⟨hne', ha'⟩ := Text.isName_iff.1 hu
    obtain ⟨c, d, hc, hd, hca, hda⟩ := hends Char.isAlpha hne hne' ha ha'
    simp [Text.joins, hc, hd, hca, hda]
  | op o => cases hu <;> cases h
  | lparen => cases hu <;> cases h
  | rparen => cases hu <;> cases h

/-- What follows the last token of a text, if the text after it does not join, begins with a blank
or does not cling to the token. -/
theorem Rendering.exists_head?_of_clings {k l : Token} {w v : Text} (hv : Spells k v)
    (hw : w.all Text.isBlank = true) (hu : Rendering Text.isBlank ls u)
    (hjoin : w = [] → Text.joins v u = false) (hl : l ∈ ls.head?) (h : clings k l = true) :
    ∃ c ∈ (w ++ u).head?, Text.isBlank c = true := by
  cases w with
  | cons c w => exact ⟨c, rfl, List.all_eq_true.1 hw c List.mem_cons_self⟩
  | nil =>
    cases hu with
    | nil _ => cases hl
    | @cons w' u' t' m ls hw' hu' _ _ =>
      obtain rfl : m = l := Option.some.inj hl
      cases w' with
      | cons c w' => exact ⟨c, rfl, List.all_eq_true.1 hw' c List.mem_cons_self⟩
      | nil =>
        have hj := hjoin rfl
        rw [List.nil_append, hv.joins hu' h t'] at hj
        cases hj

theorem joins_append {v : Text} (ht : t ≠ []) : Text.joins (v ++ t) u = Text.joins t u := by
  rw [Text.joins, Text.joins, List.getLast?_append, List.getLast?_eq_some_getLast ht]
  rfl

theorem Rendering.ne_nil {k : Token} {gap : Char → Bool} (h : Rendering gap (k :: ks) t) :
    t ≠ [] := by
  cases h with
  | cons hw hu _ _ => simp [hu.ne_nil]

/-- Two texts spell their tokens one after another, unless they join. -/
theorem Rendering.append (ht : Rendering Text.isBlank ks t) (hu : Rendering Text.isBlank ls u)
    (hjoin : Text.joins t u = false) : Rendering Text.isBlank (ks ++ ls) (t ++ u) := by
  induction ht with
  | @nil w hw => exact hu.append_gap (fun _ h => h) (List.all_eq_true.1 hw)
  | @cons w v t k ks hw hv apart ht ih =>
    rw [List.append_assoc]
    cases ks with
    | nil =>
      cases ht with
      | nil hb =>
        refine .cons hw hv (fun l hl hkl => ?_) (hu.append_gap (fun _ h => h) (List.all_eq_true.1 hb))
        refine hu.exists_head?_of_clings hv hb (fun ht => ?_) hl hkl
        rwa [ht, List.append_nil, joins_append hv.ne_nil] at hjoin
    | cons m ks =>
      have hne := ht.ne_nil
      refine .cons hw hv (fun l hl hkl => ?_) (ih (joins_append hne ▸ hjoin))
      obtain ⟨c, hc, hb⟩ := apart l hl hkl
      refine ⟨c, ?_, hb⟩
      rw [List.head?_append, Option.mem_def.1 hc]
      rfl

/-- The tokens of a gap are its signs. -/
theorem rendering_gap {g : Text} (hg : g.isGap = true) (h : Rendering Text.isBlank ks t) :
    Rendering Text.isBlank (Infix.signTokens g.signs ++ ks) (g ++ t) := by
  induction g with
  | nil => exact h
  | cons c g ih =>
    rw [Text.isGap, List.all_cons, Bool.and_eq_true, Bool.or_eq_true] at hg
    have ih := ih hg.2
    cases hc : Sign.ofSymbol? c with
    | none =>
      have hb : Text.isBlank c = true := by simpa [hc] using hg.1
      rw [Text.signs, List.filterMap_cons_none hc]
      exact ih.cons_gap (fun _ h => h) hb
    | some s =>
      obtain rfl := Sign.ofSymbol?_eq_some_iff.1 hc
      have hs := ih.cons_tight (.op s.operator) fun _ => rfl
      rw [Operator.symbol_operator] at hs
      rwa [Text.signs, List.filterMap_cons_some hc]

theorem isDigit_eq_false_of_isBlank {c : Char} (h : Text.isBlank c = true) : c.isDigit = false := by
  rw [Bool.eq_false_iff]
  intro hd
  rw [isBlank_eq_false_of_isPart (isPart_of_isDigit hd)] at h
  cases h

theorem joins_gap {g : Text} (hg : g.isGap = true) (hne : g ≠ []) (t u : Text) :
    Text.joins t (g ++ u) = false := by
  obtain ⟨d, g, rfl⟩ := List.exists_cons_of_ne_nil hne
  have hd : Text.isBlank d = true ∨ (Sign.ofSymbol? d).isSome = true := by
    simpa using List.all_eq_true.1 hg d List.mem_cons_self
  have hpart : d.isDigit = false ∧ d.isAlpha = false := by
    obtain hb | hs := hd
    · exact ⟨isDigit_eq_false_of_isBlank hb, isAlpha_eq_false_of_isBlank hb⟩
    · obtain ⟨s, hs⟩ := Option.isSome_iff_exists.1 hs
      obtain rfl := Sign.ofSymbol?_eq_some_iff.1 hs
      cases s <;> exact ⟨rfl, rfl⟩
  rw [Text.joins, List.cons_append, List.head?_cons]
  cases t.getLast? <;> simp [hpart]

end Token

namespace Expression

open Token

variable {s : Store} {t u g g' : Text}

/-! ## What stands between two tokens -/

theorem filter_gap {p : Char → Bool} (hg : g.isGap = true)
    (hp : ∀ c, p c = true → Text.isBlank c = false ∧ Sign.ofSymbol? c = none) :
    g.filter p = [] := by
  refine List.filter_eq_nil_iff.2 fun c hc hpc => ?_
  have hgap := List.all_eq_true.1 hg c hc
  simp [hp c hpc] at hgap

/-- Of two texts with the same parentheses, the same first unexpected character and the same merged
tokens, one has the value or the fault of the other. -/
theorem value_eq_of_reading (hparens : Bracket.parens t = Bracket.parens u)
    (hfind : t.find? (fun d => !Text.isBlank d && !isPart d) =
      u.find? (fun d => !Text.isBlank d && !isPart d))
    (hread : t.find? (fun d => !Text.isBlank d && !isPart d) = none →
      ∃ ks ls, Rendering Text.isBlank ks t ∧ Rendering Text.isBlank ls u ∧
        mergeSigns (.op .add :: ks) = mergeSigns (.op .add :: ls)) :
    value s t = value s u := by
  by_cases hb : Bracket.Dyck (Bracket.parens t)
  · have hb' : Bracket.Dyck (Bracket.parens u) := hparens ▸ hb
    cases hf : t.find? (fun d => !Text.isBlank d && !isPart d) with
    | some c => rw [value_of_unexpected hb hf, value_of_unexpected hb' (hfind ▸ hf)]
    | none =>
      obtain ⟨ks, ls, hks, hls, hmerge⟩ := hread hf
      rw [value_of_rendering hb hks, value_of_rendering hb' hls, hmerge]
  · have hb' : ¬ Bracket.Dyck (Bracket.parens u) := hparens ▸ hb
    rw [value_of_not_dyck hb, value_of_not_dyck hb']

/-- Whatever stands between two texts that do not join, the tokens of the whole are those of the
first text, the signs between them, and those of the second text. -/
theorem exists_rendering_between (ht : ∃ ks, Rendering Text.isBlank ks t)
    (hu : ∃ ls, Rendering Text.isBlank ls u) :
    ∃ ks ls, ∀ g : Text, g.isGap = true → (g ≠ [] ∨ Text.joins t u = false) →
      Rendering Text.isBlank (ks ++ (Infix.signTokens g.signs ++ ls)) (t ++ (g ++ u)) := by
  obtain ⟨ks, hks⟩ := ht
  obtain ⟨ls, hls⟩ := hu
  refine ⟨ks, ls, fun g hg hjoin => hks.append (rendering_gap hg hls) ?_⟩
  by_cases hne : g = []
  · subst hne
    exact hjoin.resolve_left (· rfl)
  · exact joins_gap hg hne t u

theorem filter_between {p : Char → Bool} (hg : g.isGap = true)
    (hp : ∀ c, p c = true → Text.isBlank c = false ∧ Sign.ofSymbol? c = none) (t u : Text) :
    (t ++ (g ++ u)).filter p = t.filter p ++ u.filter p := by
  rw [List.filter_append, List.filter_append, filter_gap hg hp, List.nil_append]

/-- What stands between two texts may be written with other blanks, and with other signs that have
the same net sign.  Nothing at all may stand in place of blanks if the texts do not join. -/
theorem value_between (hg : g.isGap = true) (hg' : g'.isGap = true)
    (hnil : g.signs = [] ↔ g'.signs = []) (hnet : Infix.netSign g.signs = Infix.netSign g'.signs)
    (hne : g ≠ [] ∨ Text.joins t u = false) (hne' : g' ≠ [] ∨ Text.joins t u = false) :
    value s (t ++ (g ++ u)) = value s (t ++ (g' ++ u)) := by
  have hfind {g : Text} (hg : g.isGap = true) :
      (t ++ (g ++ u)).find? (fun d => !Text.isBlank d && !isPart d) =
        (t.filter (fun d => !Text.isBlank d && !isPart d) ++
          u.filter (fun d => !Text.isBlank d && !isPart d)).head? := by
    rw [← List.head?_filter, filter_between hg fun _ => visible_of_unexpected]
  refine value_eq_of_reading ?_ ((hfind hg).trans (hfind hg').symm) fun hnone => ?_
  · exact (filter_between hg (fun _ => visible_of_paren) t u).trans
      (filter_between hg' (fun _ => visible_of_paren) t u).symm
  · have hparts := List.find?_eq_none.1 hnone
    have hread {v : Text} (hv : ∀ c ∈ v, c ∈ t ++ (g ++ u)) : ∃ ks, Rendering Text.isBlank ks v :=
      exists_rendering_of_find? (List.find?_eq_none.2 fun c hc => hparts c (hv c hc))
    obtain ⟨ks, ls, hbetween⟩ := exists_rendering_between
      (hread fun c hc => List.mem_append_left _ hc)
      (hread fun c hc => List.mem_append_right _ (List.mem_append_right _ hc))
    refine ⟨_, _, hbetween g hg hne, hbetween g' hg' hne', ?_⟩
    exact mergeSigns_append_congr (mergeSigns_congr hnil hnet ls) (.op .add :: ks)

theorem value_respelled (h : Text.Respelled t u) : value s t = value s u := by
  induction h with
  | refl => rfl
  | replace h hg hg' hnil hparity hne hne' ih =>
    refine ih.trans (value_between hg hg' hnil ?_ hne hne')
    rw [netSign_eq, netSign_eq, hparity]

/-- Collapsing signs and reading tokens commute.  The collapsed form of a text is read as the tokens
of the text, after a plus and whatever its blanks are, with one sign in place of each run of signs:
a minus if the run has an odd number of them.  If the text is refused, its collapsed form is refused
for the same character.  So a text keeps its value, or its fault, when its blanks and its runs of
signs are respelled. -/
theorem scan_collapse_respelled :
    (mergeSigns [] = [] ∧
      (∀ k ks, k.sign? = none → mergeSigns (k :: ks) = k :: mergeSigns ks) ∧
      ∀ ss ks, ss ≠ [] → (∀ k ∈ ks.head?, k.sign? = none) →
        mergeSigns (Infix.signTokens ss ++ ks) =
          .op (if ss.count .minus % 2 = 1 then .sub else .add) :: mergeSigns ks) ∧
    (∀ t, scan (Sign.collapse t) = (scan ('+' :: spaced t)).map mergeSigns) ∧
    ∀ t u, Text.Respelled t u → ∀ s, value s t = value s u :=
  ⟨⟨rfl, fun _ ks hk => mergeSigns_cons hk ks, fun _ _ => mergeSigns_signs⟩, scan_collapse,
    fun _ _ h _ => value_respelled h⟩

/-- Two minus signs with a no-break space between them, and a plus. -/
theorem scan_collapse_respelled_two_minus :
    mergeSigns [.op .sub, .op .sub, .int 3] = [.op .add, .int 3] ∧
    scan (Sign.collapse "2 -\u00a0- 3".toList) = .ok [.op .add, .int 2, .op .add, .int 3] ∧
    Text.Respelled "2 -\u00a0- 3".toList "2+3".toList ∧
    ∀ s, value s "2 -\u00a0- 3".toList = value s "2+3".toList := by
  obtain ⟨⟨-, -, hrun⟩, hscan, hvalue⟩ := scan_collapse_respelled
  have hrespelled : Text.Respelled (['2'] ++ (" -\u00a0- ".toList ++ ['3']))
      (['2'] ++ (['+'] ++ ['3'])) :=
    .replace (.refl _) (by decide) (by decide) (by decide) (by decide) (by decide) (by decide)
  have hread : scan ('+' :: spaced "2 -\u00a0- 3".toList) =
      .ok [.op .add, .int 2, .op .sub, .op .sub, .int 3] := by
    decide +kernel
  refine ⟨?_, ?_, hrespelled, hvalue _ _ hrespelled⟩
  · exact hrun [.minus, .minus] [.int 3] (by decide) (by decide)
  · rw [hscan, hread]
    rfl

end Expression

end LineCalc
