import LineCalc.Infix.Basic
import LineCalc.Proofs.Scan
import LineCalc.Sign.Collapse
import Mathlib.Data.List.TakeWhile

/-!
# Net signs

`Token.mergeSigns` puts the net sign of each run of signs in place of the run.  It does to tokens
what `Sign.collapse` does to texts: the collapsed form of a text that spells some tokens spells the
merged tokens, with one more plus in front of them (`rendering_collapse`).  Apart from signs and
blanks nothing is lost, added or moved (`filter_collapse`).
-/

namespace LineCalc

namespace Operator

/-- The sign that is written like the operator. -/
def sign? : Operator → Option Sign
  | add => some .plus
  | sub => some .minus
  | _ => none

theorem sign?_operator (s : Sign) : s.operator.sign? = some s := by
  cases s <;> rfl

theorem sign?_eq_some_iff {o : Operator} {s : Sign} : o.sign? = some s ↔ o = s.operator := by
  cases o <;> cases s <;> simp [sign?, Sign.operator]

theorem symbol_operator (s : Sign) : s.operator.symbol = s.symbol := by
  cases s <;> rfl

end Operator

namespace Token

/-! ## Runs of signs among tokens -/

/-- The sign that is written like the token. -/
def sign? : Token → Option Sign
  | op o => o.sign?
  | _ => none

/-- A sign and the tokens after it, which it joins if they begin with a sign. -/
def absorb (s : Sign) : List Token → List Token
  | [] => [op s.operator]
  | k :: ks =>
    match k.sign? with
    | some r => op (s * r).operator :: ks
    | none => op s.operator :: k :: ks

/-- The tokens with its net sign in place of each run of signs. -/
def mergeSigns : List Token → List Token
  | [] => []
  | k :: ks =>
    match k.sign? with
    | some s => absorb s (mergeSigns ks)
    | none => k :: mergeSigns ks

theorem sign?_eq_some_iff {k : Token} {s : Sign} : k.sign? = some s ↔ k = op s.operator := by
  cases k <;> simp [sign?, Operator.sign?_eq_some_iff]

theorem mergeSigns_sign (s : Sign) (ks : List Token) :
    mergeSigns (op s.operator :: ks) = absorb s (mergeSigns ks) := by
  simp [mergeSigns, sign?, Operator.sign?_operator]

theorem mergeSigns_cons {k : Token} (h : k.sign? = none) (ks : List Token) :
    mergeSigns (k :: ks) = k :: mergeSigns ks := by
  simp [mergeSigns, h]

theorem absorb_sign (s r : Sign) (ks : List Token) :
    absorb s (op r.operator :: ks) = op (s * r).operator :: ks := by
  simp [absorb, sign?, Operator.sign?_operator]

theorem absorb_cons (s : Sign) {k : Token} (h : k.sign? = none) (ks : List Token) :
    absorb s (k :: ks) = op s.operator :: k :: ks := by
  simp [absorb, h]

theorem absorb_absorb (r s : Sign) (ks : List Token) :
    absorb r (absorb s ks) = absorb (r * s) ks := by
  cases ks with
  | nil => exact absorb_sign r s []
  | cons k ks =>
    cases h : k.sign? with
    | none => rw [absorb_cons s h, absorb_cons (r * s) h, absorb_sign]
    | some q =>
      obtain rfl := sign?_eq_some_iff.1 h
      rw [absorb_sign, absorb_sign, absorb_sign, Sign.mul_assoc]

/-- A sign stays in front of the tokens after it, joined with theirs or not. -/
theorem exists_absorb (s : Sign) (ks : List Token) :
    ∃ (r : Sign) (ls : List Token), absorb s ks = op r.operator :: ls := by
  cases ks with
  | nil => exact ⟨s, [], rfl⟩
  | cons k ks =>
    cases h : k.sign? with
    | none => exact ⟨s, k :: ks, absorb_cons s h ks⟩
    | some r =>
      obtain rfl := sign?_eq_some_iff.1 h
      exact ⟨s * r, ks, absorb_sign s r ks⟩

/-- Of the tokens that are no signs, merging moves none to the front. -/
theorem head?_mergeSigns {ks : List Token} {k : Token} (hk : k.sign? = none)
    (h : k ∈ (mergeSigns ks).head?) : k ∈ ks.head? := by
  cases ks with
  | nil => exact h
  | cons l ks =>
    cases hl : l.sign? with
    | none => rwa [mergeSigns_cons hl] at h
    | some s =>
      obtain rfl := sign?_eq_some_iff.1 hl
      obtain ⟨r, ls, hr⟩ := exists_absorb s (mergeSigns ks)
      rw [mergeSigns_sign, hr] at h
      obtain rfl : op r.operator = k := Option.some.inj h
      rw [sign?_eq_some_iff.2 rfl] at hk
      cases hk

/-! ## Spellings without signs -/

theorem Spells.eq_symbol {s : Sign} {u : Text} (h : Spells (.op s.operator) u) :
    u = [s.symbol] := by
  cases h with
  | op o => rw [Operator.symbol_operator]

theorem ofSymbol?_eq_none_of_isBlank {c : Char} (h : Text.isBlank c = true) :
    Sign.ofSymbol? c = none := by
  rw [Option.eq_none_iff_forall_ne_some]
  intro s hs
  rw [Sign.ofSymbol?_eq_some_iff] at hs
  subst hs
  cases s <;> cases h

theorem Spells.ofSymbol?_eq_none {k : Token} {u : Text} (h : Spells k u) (hk : k.sign? = none) :
    ∀ c ∈ u, Sign.ofSymbol? c = none := by
  intro c hc
  rw [Option.eq_none_iff_forall_ne_some]
  intro s hs
  rw [Sign.ofSymbol?_eq_some_iff] at hs
  subst hs
  cases h with
  | int h =>
    have hd := (Text.isNumeral_iff.1 h).2 _ hc
    cases s <;> cases hd
  | name h =>
    have ha := (Text.isName_iff.1 h).2 _ hc
    cases s <;> cases ha
  | op o =>
    rw [List.mem_singleton, ← Operator.symbol_operator, ← Operator.ofSymbol?_eq_some_iff,
      Operator.ofSymbol?_symbol] at hc
    obtain rfl := Option.some.inj hc
    rw [sign?_eq_some_iff.2 rfl] at hk
    cases hk
  | lparen => cases s <;> cases List.mem_singleton.1 hc
  | rparen => cases s <;> cases List.mem_singleton.1 hc

end Token

namespace Sign

open Token

/-! ## Collapsed renderings -/

/-- The tokens of the sign that is still to be written for a gap. -/
def Gap.tokens : Gap → List Token
  | .run s => [.op s.operator]
  | _ => []

theorem mergeSigns_gap_sign (g : Gap) (s : Sign) (ks : List Token) :
    mergeSigns (g.tokens ++ .op s.operator :: ks) =
      mergeSigns ((Gap.run (g.net * s)).tokens ++ ks) := by
  cases g with
  | run r =>
    change mergeSigns (.op r.operator :: .op s.operator :: ks) = mergeSigns (.op _ :: ks)
    rw [mergeSigns_sign, mergeSigns_sign, mergeSigns_sign, absorb_absorb]
    rfl
  | tight => rfl
  | spaced => rfl

theorem collapseFrom_blanks_of_ne {g : Gap} (hg : g ≠ .tight) {w : Text}
    (hw : ∀ c ∈ w, Text.isBlank c = true) (t : Text) :
    collapseFrom g (w ++ t) = collapseFrom g t := by
  induction w with
  | nil => rfl
  | cons c w ih =>
    have hc := hw c List.mem_cons_self
    rw [List.cons_append, collapseFrom_blank (ofSymbol?_eq_none_of_isBlank hc) hc, if_neg hg]
    exact ih fun d hd => hw d (List.mem_cons_of_mem c hd)

theorem collapseFrom_tight_blanks {c : Char} {w : Text} (hw : ∀ d ∈ c :: w, Text.isBlank d = true)
    (t : Text) : collapseFrom .tight (c :: w ++ t) = ' ' :: collapseFrom .spaced t := by
  have hc := hw c List.mem_cons_self
  rw [List.cons_append, collapseFrom_blank (ofSymbol?_eq_none_of_isBlank hc) hc, if_pos rfl,
    collapseFrom_blanks_of_ne (by decide) fun d hd => hw d (List.mem_cons_of_mem c hd)]

theorem collapseFrom_tight_visibles {u : Text}
    (hu : ∀ c ∈ u, ofSymbol? c = none ∧ Text.isBlank c = false) (t : Text) :
    collapseFrom .tight (u ++ t) = u ++ collapseFrom .tight t := by
  induction u with
  | nil => rfl
  | cons c u ih =>
    have hc := hu c List.mem_cons_self
    rw [List.cons_append, collapseFrom_visible hc.1 hc.2,
      ih fun d hd => hu d (List.mem_cons_of_mem c hd)]
    rfl

theorem collapseFrom_visibles {u : Text} (hne : u ≠ [])
    (hu : ∀ c ∈ u, ofSymbol? c = none ∧ Text.isBlank c = false) (g : Gap) (t : Text) :
    collapseFrom g (u ++ t) = g.mark ++ (u ++ collapseFrom .tight t) := by
  cases u with
  | nil => exact absurd rfl hne
  | cons c u =>
    have hc := hu c List.mem_cons_self
    rw [List.cons_append, collapseFrom_visible hc.1 hc.2,
      collapseFrom_tight_visibles fun d hd => hu d (List.mem_cons_of_mem c hd)]
    rfl

variable {ks : List Token} {t : Text}

/-- The mark of a gap spells the tokens of the gap. -/
theorem rendering_mark (g : Gap) (h : Rendering Text.isSeparator ks t) :
    Rendering Text.isSeparator (g.tokens ++ ks) (g.mark ++ t) := by
  cases g with
  | run s =>
    rw [Gap.mark, ← Operator.symbol_operator]
    refine .cons (w := []) (u := [s.operator.symbol]) rfl (.op s.operator) ?_ h
    intro l _ hl
    cases hl
  | tight => exact h
  | spaced => exact h

/-- Blanks before a text leave at most one separator. -/
theorem rendering_blanks {w : Text} (hw : ∀ c ∈ w, Text.isBlank c = true)
    (h : ∀ g : Gap, Rendering Text.isSeparator (mergeSigns (g.tokens ++ ks)) (collapseFrom g t))
    (g : Gap) :
    Rendering Text.isSeparator (mergeSigns (g.tokens ++ ks)) (collapseFrom g (w ++ t)) := by
  cases w with
  | nil => exact h g
  | cons c w =>
    by_cases hg : g = .tight
    · subst hg
      rw [collapseFrom_tight_blanks hw]
      exact (h .spaced).cons_gap (fun _ => Text.isBlank_of_isSeparator) rfl
    · rw [collapseFrom_blanks_of_ne hg hw]
      exact h g

theorem mergeSigns_gap_cons (g : Gap) {k : Token} (hk : k.sign? = none) (ks : List Token) :
    mergeSigns (g.tokens ++ k :: ks) = g.tokens ++ k :: mergeSigns ks := by
  cases g with
  | run s =>
    change mergeSigns (.op s.operator :: k :: ks) = .op s.operator :: k :: mergeSigns ks
    rw [mergeSigns_sign, mergeSigns_cons hk, absorb_cons s hk]
  | tight => exact mergeSigns_cons hk ks
  | spaced => exact mergeSigns_cons hk ks

/-- The step of `rendering_collapseFrom` for a token that is no sign. -/
theorem rendering_visible {k : Token} {u : Text} (hk : k.sign? = none) (hu : Spells k u)
    (apart : ∀ l ∈ ks.head?, clings k l = true → ∃ c ∈ t.head?, Text.isBlank c = true)
    (h : Rendering Text.isSeparator (mergeSigns ks) (collapseFrom .tight t)) (g : Gap) :
    Rendering Text.isSeparator (mergeSigns (g.tokens ++ k :: ks)) (collapseFrom g (u ++ t)) := by
  have hvis : ∀ c ∈ u, ofSymbol? c = none ∧ Text.isBlank c = false := fun c hc =>
    ⟨hu.ofSymbol?_eq_none hk c hc, hu.isBlank_eq_false c hc⟩
  rw [mergeSigns_gap_cons g hk, collapseFrom_visibles hu.ne_nil hvis]
  refine rendering_mark g (.cons (w := []) rfl hu (fun l hl hkl => ?_) h)
  have hl' : l.sign? = none := by cases k <;> cases l <;> first | rfl | cases hkl
  obtain ⟨c, hc, hb⟩ := apart l (head?_mergeSigns hl' hl) hkl
  cases t with
  | nil => cases hc
  | cons d t =>
    obtain rfl : d = c := Option.some.inj hc
    rw [collapseFrom_blank (ofSymbol?_eq_none_of_isBlank hb) hb, if_pos rfl]
    exact ⟨' ', rfl, rfl⟩

theorem rendering_collapseFrom (h : Rendering Text.isBlank ks t) (g : Gap) :
    Rendering Text.isSeparator (mergeSigns (g.tokens ++ ks)) (collapseFrom g t) := by
  induction h generalizing g with
  | @nil w hw =>
    have hnil : ∀ g : Gap, Rendering Text.isSeparator (mergeSigns (g.tokens ++ []))
        (collapseFrom g []) := by
      intro g
      have hg : mergeSigns (g.tokens ++ []) = g.tokens ++ [] := by
        cases g with
        | run s => cases s <;> rfl
        | tight => rfl
        | spaced => rfl
      have hn : Rendering Text.isSeparator [] [] := .nil rfl
      rw [hg, collapseFrom, ← List.append_nil g.mark]
      exact rendering_mark g hn
    rw [← List.append_nil w]
    exact rendering_blanks (List.all_eq_true.1 hw) hnil g
  | @cons w u t k ks hw hu apart ht ih =>
    rw [List.append_assoc]
    refine rendering_blanks (List.all_eq_true.1 hw) (fun g => ?_) g
    cases hk : k.sign? with
    | none => exact rendering_visible hk hu apart (ih .tight) g
    | some s =>
      obtain rfl := Token.sign?_eq_some_iff.1 hk
      rw [hu.eq_symbol, mergeSigns_gap_sign, List.singleton_append, collapseFrom_symbol]
      exact ih _

/-! ## Trimmed texts -/

theorem trimEnd_append (a b : Text) :
    Text.trimEnd (a ++ b) = if b.all Text.isBlank then Text.trimEnd a else a ++ Text.trimEnd b := by
  have hb : (b.reverse.dropWhile Text.isBlank).isEmpty = b.all Text.isBlank := by
    rw [Bool.eq_iff_iff, List.isEmpty_iff, List.dropWhile_eq_nil_iff, List.all_eq_true]
    simp
  rw [Text.trimEnd, List.reverse_append, List.dropWhile_append, hb]
  split
  · rfl
  · rw [List.reverse_append, List.reverse_reverse]
    rfl

theorem head?_trimEnd {t : Text} (h : t.all Text.isBlank = false) :
    (Text.trimEnd t).head? = t.head? := by
  cases t with
  | nil => cases h
  | cons c t =>
    rw [← List.singleton_append, trimEnd_append]
    split
    · next ht =>
      have hc : Text.isBlank c = false := by simpa [ht] using h
      simp [Text.trimEnd, hc]
    · rfl

/-- A trimmed text does not end in a blank. -/
theorem isBlank_of_mem_getLast?_trim {t : Text} : ∀ c ∈ t.trim.getLast?, Text.isBlank c = false := by
  intro c hc
  rw [Text.trim, Text.trimEnd, List.getLast?_reverse] at hc
  exact not_of_mem_head?_dropWhile c hc

theorem trim_eq_self_of_ends {t : Text} (hhead : ∀ c ∈ t.head?, Text.isBlank c = false)
    (hlast : ∀ c ∈ t.getLast?, Text.isBlank c = false) : t.trim = t := by
  have hdrop {u : Text} (hu : ∀ c ∈ u.head?, Text.isBlank c = false) :
      u.dropWhile Text.isBlank = u := dropWhile_append_eq (v := []) (by simp) hu
  rw [← List.head?_reverse] at hlast
  rw [Text.trim, Text.trimStart, hdrop hhead, Text.trimEnd, hdrop hlast, List.reverse_reverse]

/-- A rendering of a token is not blank. -/
theorem all_isBlank_eq_false {k : Token} {w u : Text} (hu : Spells k u) (t : Text) :
    (w ++ u ++ t).all Text.isBlank = false := by
  cases u with
  | nil => exact absurd rfl hu.ne_nil
  | cons c u =>
    have hc := hu.isBlank_eq_false c List.mem_cons_self
    simp [hc]

theorem trimEnd_spelling {k : Token} {u : Text} (hu : Spells k u) (w : Text) :
    Text.trimEnd (w ++ u) = w ++ u := by
  obtain ⟨v, c, rfl⟩ : ∃ v c, u = v ++ [c] := by
    rcases List.eq_nil_or_concat u with rfl | ⟨v, c, hv⟩
    · exact absurd rfl hu.ne_nil
    · exact ⟨v, c, by simpa using hv⟩
  have hc := hu.isBlank_eq_false c (by simp)
  rw [← List.append_assoc, trimEnd_append]
  simp [Text.trimEnd, hc]

theorem rendering_trimEnd (h : Rendering Text.isBlank ks t) :
    Rendering Text.isBlank ks (Text.trimEnd t) := by
  induction h with
  | @nil w hw =>
    have : Text.trimEnd w = [] := by
      rw [← List.nil_append w, trimEnd_append, if_pos hw]
      rfl
    rw [this]
    exact .nil rfl
  | @cons w u t k ks hw hu apart ht ih =>
    have htrim : Text.trimEnd (w ++ u ++ t) = w ++ u ++ Text.trimEnd t := by
      rw [trimEnd_append]
      split
      · next hb =>
        have : Text.trimEnd t = [] := by
          rw [← List.nil_append t, trimEnd_append, if_pos hb]
          rfl
        rw [this, List.append_nil, trimEnd_spelling hu]
      · rfl
    rw [htrim]
    refine .cons hw hu (fun l hl hkl => ?_) ih
    rw [head?_trimEnd]
    · exact apart l hl hkl
    · cases ht with
      | nil _ => cases hl
      | cons _ hu' _ _ => exact all_isBlank_eq_false hu' _

theorem rendering_trimStart (h : Rendering Text.isBlank ks t) :
    Rendering Text.isBlank ks (Text.trimStart t) := by
  cases h with
  | nil hw =>
    have : Text.trimStart t = [] := List.dropWhile_eq_nil_iff.2 (List.all_eq_true.1 hw)
    rw [this]
    exact .nil rfl
  | @cons w u t k ks hw hu apart ht =>
    have : Text.trimStart (w ++ u ++ t) = [] ++ u ++ t := by
      rw [Text.trimStart, List.append_assoc]
      refine dropWhile_append_eq (List.all_eq_true.1 hw) ?_
      cases u with
      | nil => exact absurd rfl hu.ne_nil
      | cons c u =>
        intro d hd
        obtain rfl : c = d := Option.some.inj hd
        exact hu.isBlank_eq_false c List.mem_cons_self
    rw [this]
    exact .cons rfl hu apart ht

/-- The collapsed form of a text that spells some tokens spells the tokens with their signs merged,
after a plus. -/
theorem rendering_collapse (h : Rendering Text.isBlank ks t) :
    Rendering Text.isSeparator (mergeSigns (.op .add :: ks)) (collapse t) :=
  rendering_collapseFrom (rendering_trimEnd (rendering_trimStart h)) (.run .plus)

/-! ## What collapsing keeps -/

theorem filter_collapseFrom {p : Char → Bool}
    (hp : ∀ c, p c = true → Text.isBlank c = false ∧ ofSymbol? c = none) (g : Gap) (t : Text) :
    (collapseFrom g t).filter p = t.filter p := by
  have hsign (s : Sign) : ¬ p s.symbol = true := fun h => ofSymbol?_symbol_ne_none s (hp _ h).2
  have hmark (g : Gap) : g.mark.filter p = [] := by
    cases g with
    | run s => simp [Gap.mark, hsign]
    | tight => rfl
    | spaced => rfl
  have hspace : p ' ' = false := by
    cases h : p ' ' with
    | false => rfl
    | true => cases (hp _ h).1
  induction t generalizing g with
  | nil => exact hmark g
  | cons c t ih =>
    cases kind c with
    | sign s => rw [collapseFrom_symbol, ih, List.filter_cons_of_neg (hsign s)]
    | blank hs hb =>
      have hc : ¬ p c = true := fun h => by
        rw [(hp _ h).1] at hb
        cases hb
      rw [collapseFrom_blank hs hb, List.filter_cons_of_neg hc]
      split
      · rw [List.filter_cons_of_neg (by simp [hspace]), ih]
      · exact ih g
    | visible hs hb =>
      rw [collapseFrom_visible hs hb, List.filter_append, hmark, List.nil_append,
        List.filter_cons, List.filter_cons, ih]

theorem filter_dropWhile {p q : Char → Bool} (h : ∀ c, p c = true → q c = false) (t : Text) :
    (t.dropWhile q).filter p = t.filter p := by
  induction t with
  | nil => rfl
  | cons c t ih =>
    rw [List.dropWhile_cons]
    split
    · next hq =>
      rw [ih, List.filter_cons_of_neg]
      intro hp
      rw [h c hp] at hq
      cases hq
    · rfl

/-- The characters that are neither signs nor blanks stay as they are. -/
theorem filter_collapse {p : Char → Bool}
    (hp : ∀ c, p c = true → Text.isBlank c = false ∧ ofSymbol? c = none) (t : Text) :
    (collapse t).filter p = t.filter p := by
  have hb : ∀ c, p c = true → Text.isBlank c = false := fun c h => (hp c h).1
  rw [collapse, filter_collapseFrom hp, Text.trim, Text.trimEnd, List.filter_reverse,
    filter_dropWhile hb, List.filter_reverse, List.reverse_reverse, Text.trimStart,
    filter_dropWhile hb]

/-- The blanks of a collapsed text are spaces. -/
theorem eq_space_of_mem_collapseFrom {c : Char} (hb : Text.isBlank c = true) (g : Gap)
    (t : Text) (h : c ∈ collapseFrom g t) : c = ' ' := by
  have hmark (g : Gap) : c ∉ g.mark := by
    cases g with
    | run s =>
      intro hm
      rw [Gap.mark, List.mem_singleton] at hm
      subst hm
      cases s <;> cases hb
    | tight => exact List.not_mem_nil
    | spaced => exact List.not_mem_nil
  induction t generalizing g with
  | nil => exact absurd h (hmark g)
  | cons d t ih =>
    cases kind d with
    | sign s =>
      rw [collapseFrom_symbol] at h
      exact ih _ h
    | blank hs hd =>
      rw [collapseFrom_blank hs hd] at h
      split at h
      · obtain rfl | h := List.mem_cons.1 h
        · rfl
        · exact ih _ h
      · exact ih _ h
    | visible hs hd =>
      rw [collapseFrom_visible hs hd] at h
      obtain h | h := List.mem_append.1 h
      · exact absurd h (hmark g)
      · obtain rfl | h := List.mem_cons.1 h
        · rw [hb] at hd
          cases hd
        · exact ih _ h

end Sign

end LineCalc
