import LineCalc.Token.Rendering
import LineCalc.Token.Scan

/-!
# Reading a rendering

The scanner reads a rendering with separators as the tokens that it spells (`scan_of_rendering`), and
what it reads is a rendering of the tokens (`rendering_of_scan`).
Every text of admitted characters is a rendering (`exists_rendering`), and a text without other
blanks than separators is refused for its first character that is not admitted
(`scan_of_unexpected`).  A text is a rendering of one list of tokens only (`Rendering.unique`).
-/

namespace LineCalc

namespace Token

/-! ## The characters of tokens -/

/-- A letter, a digit, an operator symbol or a parenthesis. -/
def isPart (c : Char) : Bool :=
  c.isAlpha || c.isDigit || ['+', '-', '*', '/', '^', '(', ')'].contains c

/-- A character that makes a token longer when it follows it directly. -/
def lengthens (c : Char) : Token → Bool
  | int _ => c.isDigit
  | name _ => c.isAlpha
  | _ => false

theorem isAlpha_iff_toNat {c : Char} : c.isAlpha = true ↔
    65 ≤ c.toNat ∧ c.toNat ≤ 90 ∨ 97 ≤ c.toNat ∧ c.toNat ≤ 122 := by
  change (decide (65 ≤ c.toNat ∧ c.toNat ≤ 90) ||
    (decide (97 ≤ c.toNat) && decide (c.toNat ≤ 122))) = true ↔ _
  simp

theorem isPart_of_isDigit {c : Char} (h : c.isDigit = true) : isPart c = true := by
  simp [isPart, h]

theorem isPart_of_isAlpha {c : Char} (h : c.isAlpha = true) : isPart c = true := by
  simp [isPart, h]

theorem isPart_of_lengthens {c : Char} {k : Token} (h : lengthens c k = true) :
    isPart c = true := by
  cases k with
  | int n => exact isPart_of_isDigit h
  | name x => exact isPart_of_isAlpha h
  | op o => cases h
  | lparen => cases h
  | rparen => cases h

theorem ofSymbol?_eq_none {c : Char} (h : isPart c = false) : ofSymbol? c = none := by
  simp only [isPart, Bool.or_eq_false_iff, List.contains_eq_mem, List.mem_cons, List.not_mem_nil,
    decide_eq_false_iff_not, not_or] at h
  obtain ⟨-, hp, hm, ht, hd, he, hl, hr, -⟩ := h
  have ho : Operator.ofSymbol? c = none := by
    rw [Option.eq_none_iff_forall_ne_some]
    intro o ho
    rw [Operator.ofSymbol?_eq_some_iff] at ho
    cases o
    · exact hp ho
    · exact hm ho
    · exact ht ho
    · exact hd ho
    · exact he ho
  simp [ofSymbol?, hl, hr, ho]

theorem leading?_eq_none {c : Char} (h : isPart c = false) (t : Text) : leading? c t = none := by
  have hs := ofSymbol?_eq_none h
  simp only [isPart, Bool.or_eq_false_iff] at h
  simp [leading?, h.1.1, h.1.2, hs]

/-- The characters of tokens are printable ASCII characters other than the space. -/
theorem toNat_of_isPart {c : Char} (h : isPart c = true) : 32 < c.toNat ∧ c.toNat < 127 := by
  simp only [isPart, Bool.or_eq_true, isAlpha_iff_toNat, Char.isDigit_iff_toNat,
    List.contains_eq_mem, decide_eq_true_eq] at h
  obtain ((h | h) | h) | h := h
  · omega
  · omega
  · change 48 ≤ c.toNat ∧ c.toNat ≤ 57 at h
    omega
  · simp only [List.mem_cons, List.not_mem_nil, or_false] at h
    obtain rfl | rfl | rfl | rfl | rfl | rfl | rfl := h <;> decide

theorem toNat_of_isBlank {c : Char} (h : Text.isBlank c = true) : c.toNat ≤ 32 ∨ 127 < c.toNat := by
  simp only [Text.isBlank, List.any_eq_true, Bool.and_eq_true, decide_eq_true_eq] at h
  obtain ⟨r, hr, h⟩ := h
  have hranges : ∀ r ∈ Text.blankRanges, r.2 ≤ 32 ∨ 127 < r.1 := by decide
  have := hranges r hr
  omega

theorem isBlank_eq_false_of_isPart {c : Char} (h : isPart c = true) : Text.isBlank c = false := by
  cases hb : Text.isBlank c with
  | false => rfl
  | true =>
    have hp := toNat_of_isPart h
    have hn := toNat_of_isBlank hb
    omega

theorem isPart_eq_false_of_isBlank {c : Char} (h : Text.isBlank c = true) : isPart c = false := by
  cases hp : isPart c with
  | false => rfl
  | true => rw [isBlank_eq_false_of_isPart hp] at h; cases h

theorem isAlpha_eq_false_of_isDigit {c : Char} (h : c.isDigit = true) : c.isAlpha = false := by
  cases ha : c.isAlpha with
  | false => rfl
  | true =>
    have hd : 48 ≤ c.toNat ∧ c.toNat ≤ 57 := Char.isDigit_iff_toNat.1 h
    have hl := isAlpha_iff_toNat.1 ha
    omega

theorem not_isDigit_symbol (o : Operator) : o.symbol.isDigit = false := by
  cases o <;> rfl

theorem not_isAlpha_symbol (o : Operator) : o.symbol.isAlpha = false := by
  cases o <;> rfl

/-! ## Spellings of a token -/

theorem Spells.ne_nil {k : Token} {u : Text} (h : Spells k u) : u ≠ [] := by
  cases h with
  | int h => exact (Text.isNumeral_iff.1 h).1
  | name h => exact (Text.isName_iff.1 h).1
  | op o => exact List.cons_ne_nil _ _
  | lparen => exact List.cons_ne_nil _ _
  | rparen => exact List.cons_ne_nil _ _

theorem Spells.isPart {k : Token} {u : Text} (h : Spells k u) : ∀ c ∈ u, isPart c = true := by
  intro c hc
  cases h with
  | int h => exact isPart_of_isDigit ((Text.isNumeral_iff.1 h).2 c hc)
  | name h => exact isPart_of_isAlpha ((Text.isName_iff.1 h).2 c hc)
  | op o =>
    obtain rfl := List.mem_singleton.1 hc
    cases o <;> rfl
  | lparen => obtain rfl := List.mem_singleton.1 hc; rfl
  | rparen => obtain rfl := List.mem_singleton.1 hc; rfl

theorem Spells.isBlank_eq_false {k : Token} {u : Text} (h : Spells k u) :
    ∀ c ∈ u, Text.isBlank c = false :=
  fun c hc => isBlank_eq_false_of_isPart (h.isPart c hc)

theorem Spells.clings_of_lengthens {k l : Token} {c : Char} {v : Text} (h : Spells l (c :: v))
    (hc : lengthens c k = true) : clings k l = true := by
  have hsymbol (o : Operator) : lengthens o.symbol k = false := by
    cases k <;> simp [lengthens, not_isDigit_symbol, not_isAlpha_symbol]
  cases h with
  | int h =>
    have hd := (Text.isNumeral_iff.1 h).2 c List.mem_cons_self
    cases k <;> simp [lengthens, isAlpha_eq_false_of_isDigit hd] at hc
    rfl
  | name h =>
    have ha := (Text.isName_iff.1 h).2 c List.mem_cons_self
    cases k <;> simp only [lengthens, Bool.false_eq_true] at hc
    · rw [isAlpha_eq_false_of_isDigit hc] at ha
      cases ha
    · rfl
  | op o => rw [hsymbol] at hc; cases hc
  | lparen => cases k <;> cases hc
  | rparen => cases k <;> cases hc

theorem takeWhile_append_eq {p : Char → Bool} {v r : Text} (hv : ∀ c ∈ v, p c = true)
    (hr : ∀ c ∈ r.head?, p c = false) : (v ++ r).takeWhile p = v := by
  rw [List.takeWhile_append_of_pos hv]
  cases r with
  | nil => simp
  | cons c r => simp [hr c rfl]

theorem dropWhile_append_eq {p : Char → Bool} {v r : Text} (hv : ∀ c ∈ v, p c = true)
    (hr : ∀ c ∈ r.head?, p c = false) : (v ++ r).dropWhile p = r := by
  rw [List.dropWhile_append_of_pos hv]
  cases r with
  | nil => rfl
  | cons c r => simp [hr c rfl]

/-- A token is read to its end: what follows does not make it longer. -/
theorem leading?_append {k : Token} {c : Char} {v r : Text} (h : Spells k (c :: v))
    (hr : ∀ d ∈ r.head?, lengthens d k = false) : leading? c (v ++ r) = some (k, r) := by
  generalize hu : c :: v = u at h
  cases h with
  | int h =>
    subst hu
    have hd := (Text.isNumeral_iff.1 h).2
    have hv : ∀ d ∈ v, d.isDigit = true := fun d hv => hd d (List.mem_cons_of_mem c hv)
    rw [leading?, if_pos (hd c List.mem_cons_self), takeWhile_append_eq hv hr,
      dropWhile_append_eq hv hr]
  | name h =>
    subst hu
    have ha := (Text.isName_iff.1 h).2
    have hv : ∀ d ∈ v, d.isAlpha = true := fun d hv => ha d (List.mem_cons_of_mem c hv)
    have hc := ha c List.mem_cons_self
    have hn : ¬ c.isDigit = true := fun hd => by
      rw [isAlpha_eq_false_of_isDigit hd] at hc
      cases hc
    rw [leading?, if_neg hn, if_pos hc, takeWhile_append_eq hv hr, dropWhile_append_eq hv hr]
  | op o =>
    cases hu
    cases o <;> rfl
  | lparen => cases hu; rfl
  | rparen => cases hu; rfl

theorem next?_append {k : Token} {w u r : Text} (hw : ∀ c ∈ w, Text.isSeparator c = true)
    (hu : Spells k u) (hr : ∀ d ∈ r.head?, lengthens d k = false) :
    next? (w ++ (u ++ r)) = some (k, r) := by
  cases u with
  | nil => exact absurd rfl hu.ne_nil
  | cons c v =>
    have hc : Text.isSeparator c = false :=
      Text.isSeparator_eq_false_of_not_isBlank (hu.isBlank_eq_false c List.mem_cons_self)
    have hd : (w ++ (c :: v ++ r)).dropWhile Text.isSeparator = c :: (v ++ r) :=
      dropWhile_append_eq hw fun d hd => Option.some.inj hd ▸ hc
    rw [next?, hd]
    exact leading?_append hu hr

/-! ## Renderings -/

variable {gap : Char → Bool} {ks : List Token} {t : Text}

/-- What follows a token in a rendering does not make it longer. -/
theorem Rendering.lengthens_head (hgap : ∀ c, gap c = true → Text.isBlank c = true)
    (h : Rendering gap ks t) {k : Token}
    (apart : ∀ l ∈ ks.head?, clings k l = true → ∃ c ∈ t.head?, gap c = true) :
    ∀ c ∈ t.head?, lengthens c k = false := by
  intro c hc
  cases hl : lengthens c k with
  | false => rfl
  | true =>
    have hp : Text.isBlank c = false := isBlank_eq_false_of_isPart (isPart_of_lengthens hl)
    cases h with
    | nil hw =>
      have hb := List.all_eq_true.1 hw c (List.mem_of_mem_head? hc)
      rw [hp] at hb
      cases hb
    | @cons w u t l ks hw hu _ ht =>
      cases w with
      | cons d w =>
        obtain rfl : d = c := Option.some.inj hc
        have hb := hgap d (List.all_eq_true.1 hw d List.mem_cons_self)
        rw [hp] at hb
        cases hb
      | nil =>
        cases u with
        | nil => exact absurd rfl hu.ne_nil
        | cons d v =>
          obtain rfl : d = c := Option.some.inj hc
          obtain ⟨e, he, hg⟩ := apart l rfl (hu.clings_of_lengthens hl)
          obtain rfl : d = e := Option.some.inj he
          rw [hgap d hg] at hp
          cases hp

theorem scanRest_of_none (h : next? t = none) : scanRest t = ([], t) := by
  rw [scanRest]
  split
  · rfl
  · next h' => rw [h] at h'; cases h'

theorem scanRest_of_some {k : Token} {r : Text} (h : next? t = some (k, r)) :
    scanRest t = (k :: (scanRest r).1, (scanRest r).2) := by
  rw [scanRest]
  split
  · next h' => rw [h] at h'; cases h'
  · next k' r' h' =>
    rw [h] at h'
    cases h'
    rfl

/-- A text goes on with a character that is neither a blank nor stands in a token, if it goes on at
all. -/
def Stops (r : Text) : Prop := ∀ c ∈ r.head?, isPart c = false ∧ Text.isBlank c = false

theorem next?_eq_none {w r : Text} (hw : ∀ c ∈ w, Text.isBlank c = true) (hr : Stops r) :
    next? (w ++ r) = none := by
  unfold next?
  split
  · rfl
  · next c v hs =>
    refine leading?_eq_none ?_ v
    rw [List.dropWhile_append] at hs
    split at hs
    · cases r with
      | nil => cases hs
      | cons d r =>
        have hd : ¬ Text.isSeparator d = true :=
          Bool.eq_false_iff.1 (Text.isSeparator_eq_false_of_not_isBlank (hr d rfl).2)
        rw [List.dropWhile_cons_of_neg hd] at hs
        cases hs
        exact (hr _ rfl).1
    · cases hwd : w.dropWhile Text.isSeparator with
      | nil => simp_all
      | cons d u =>
        rw [hwd] at hs
        cases hs
        have hm : c ∈ w.dropWhile Text.isSeparator := hwd ▸ List.mem_cons_self
        exact isPart_eq_false_of_isBlank (hw c ((List.dropWhile_suffix _).mem hm))

/-- A rendering is read to its end, if no token begins after it. -/
theorem scanRest_append (h : Rendering Text.isSeparator ks t) {r : Text} (hr : Stops r) :
    ∃ w, w.all Text.isBlank = true ∧ scanRest (t ++ r) = (ks, w ++ r) := by
  induction h with
  | @nil w hw =>
    exact ⟨w, hw, scanRest_of_none (next?_eq_none (List.all_eq_true.1 hw) hr)⟩
  | @cons w u t k ks hw hu apart ht ih =>
    obtain ⟨v, hv, hs⟩ := ih
    have hhead : ∀ d ∈ (t ++ r).head?, lengthens d k = false := by
      cases t with
      | nil =>
        intro d hd
        cases hl : lengthens d k with
        | false => rfl
        | true =>
          have hp := (hr d hd).1
          rw [isPart_of_lengthens hl] at hp
          cases hp
      | cons d t => exact ht.lengthens_head (fun _ => Text.isBlank_of_isSeparator) apart
    have hn := next?_append (List.all_eq_true.1 hw) hu hhead
    refine ⟨v, hv, ?_⟩
    rw [List.append_assoc, List.append_assoc, scanRest_of_some hn, hs]

/-- A rendering is read as the tokens that it spells. -/
theorem scan_of_rendering (h : Rendering Text.isSeparator ks t) : scan t = .ok ks := by
  obtain ⟨w, hw, hs⟩ := scanRest_append h (r := []) (fun c hc => by cases hc)
  rw [List.append_nil, List.append_nil] at hs
  have hf : w.find? (!Text.isBlank ·) = none := by
    rw [List.find?_eq_none]
    intro c hc
    simp [List.all_eq_true.1 hw c hc]
  simp [scan, hs, hf]

/-- A character that stands in no token ends the reading. -/
theorem scan_append_cons (h : Rendering Text.isSeparator ks t) {c : Char} (hp : isPart c = false)
    (hb : Text.isBlank c = false) (r : Text) : scan (t ++ c :: r) = .error ⟨c⟩ := by
  have hr : Stops (c :: r) := fun d hd => Option.some.inj hd ▸ ⟨hp, hb⟩
  obtain ⟨w, hw, hs⟩ := scanRest_append h hr
  have hf : (w ++ c :: r).find? (!Text.isBlank ·) = some c := by
    rw [List.find?_append, List.find?_eq_none.2, Option.none_or, List.find?_cons_of_pos]
    · simp [hb]
    · intro d hd
      simp [List.all_eq_true.1 hw d hd]
  simp [scan, hs, hf]

/-! ## What is read -/

theorem eq_of_ofSymbol? {c : Char} {k : Token} (h : ofSymbol? c = some k) :
    (k = lparen ∧ c = '(') ∨ (k = rparen ∧ c = ')') ∨ ∃ o, k = op o ∧ c = o.symbol := by
  unfold ofSymbol? at h
  split at h
  · next hc => exact Or.inl ⟨(Option.some.inj h).symm, hc⟩
  split at h
  · next hc => exact Or.inr (Or.inl ⟨(Option.some.inj h).symm, hc⟩)
  · obtain ⟨o, ho, rfl⟩ := Option.map_eq_some_iff.1 h
    exact Or.inr (Or.inr ⟨o, rfl, Operator.ofSymbol?_eq_some_iff.1 ho⟩)

theorem not_of_mem_head?_dropWhile {p : Char → Bool} {t : Text} :
    ∀ d ∈ (t.dropWhile p).head?, p d = false := by
  intro d hd
  have hnot := List.head?_dropWhile_not p t
  rw [Option.mem_def.1 hd] at hnot
  exact hnot

/-- A token that is read is spelled by the text up to the rest, and the rest does not make it
longer. -/
theorem exists_spells_of_leading? {c : Char} {t r : Text} {k : Token}
    (h : leading? c t = some (k, r)) :
    ∃ u, c :: t = u ++ r ∧ Spells k u ∧ ∀ d ∈ r.head?, lengthens d k = false := by
  unfold leading? at h
  split at h
  · next hc =>
    cases h
    refine ⟨c :: t.takeWhile Char.isDigit, ?_, .int ?_, not_of_mem_head?_dropWhile⟩
    · rw [List.cons_append, List.takeWhile_append_dropWhile]
    · simp [Text.isNumeral, hc]
  split at h
  · next hc =>
    cases h
    refine ⟨c :: t.takeWhile Char.isAlpha, ?_, .name ?_, not_of_mem_head?_dropWhile⟩
    · rw [List.cons_append, List.takeWhile_append_dropWhile]
    · simp [Text.isName, hc]
  · obtain ⟨l, hl, h⟩ := Option.map_eq_some_iff.1 h
    cases h
    refine ⟨[c], rfl, ?_⟩
    obtain ⟨rfl, rfl⟩ | ⟨rfl, rfl⟩ | ⟨o, rfl, rfl⟩ := eq_of_ofSymbol? hl
    · exact ⟨.lparen, fun _ _ => rfl⟩
    · exact ⟨.rparen, fun _ _ => rfl⟩
    · exact ⟨.op o, fun _ _ => rfl⟩

theorem exists_spells_of_next? {r : Text} {k : Token} (h : next? t = some (k, r)) :
    ∃ w u, t = w ++ u ++ r ∧ w.all Text.isSeparator = true ∧ Spells k u ∧
      ∀ d ∈ r.head?, lengthens d k = false := by
  unfold next? at h
  split at h
  · cases h
  · next c v hv =>
    obtain ⟨u, hu, hspells, hlengthens⟩ := exists_spells_of_leading? h
    refine ⟨t.takeWhile Text.isSeparator, u, ?_, List.all_takeWhile, hspells, hlengthens⟩
    rw [List.append_assoc, ← hu, ← hv, List.takeWhile_append_dropWhile]

theorem Spells.lengthens_of_clings {k l : Token} {c : Char} {v : Text} (h : Spells l (c :: v))
    (hkl : clings k l = true) : lengthens c k = true := by
  cases h with
  | int h =>
    cases k <;> cases hkl
    exact (Text.isNumeral_iff.1 h).2 c List.mem_cons_self
  | name h =>
    cases k <;> cases hkl
    exact (Text.isName_iff.1 h).2 c List.mem_cons_self
  | op o => cases k <;> cases hkl
  | lparen => cases k <;> cases hkl
  | rparen => cases k <;> cases hkl

/-- If a text does not make a token longer, and its first token clings to that token, it begins with
a gap. -/
theorem Rendering.exists_gap_of_clings {k l : Token} (h : Rendering gap ks t) (hl : l ∈ ks.head?)
    (hkl : clings k l = true) (ht : ∀ d ∈ t.head?, lengthens d k = false) :
    ∃ c ∈ t.head?, gap c = true := by
  cases h with
  | nil => cases hl
  | @cons w u t m ks hw hu =>
    obtain rfl : m = l := Option.some.inj hl
    cases w with
    | cons c w => exact ⟨c, rfl, List.all_eq_true.1 hw c List.mem_cons_self⟩
    | nil =>
      cases u with
      | nil => exact absurd rfl hu.ne_nil
      | cons c v =>
        have hc := ht c rfl
        rw [hu.lengthens_of_clings hkl] at hc
        cases hc

theorem rendering_of_scanRest {r : Text} (h : scanRest t = (ks, r))
    (hr : r.all Text.isBlank = true) : Rendering Text.isSeparator ks t := by
  induction ks generalizing t with
  | nil =>
    cases hn : next? t with
    | none =>
      rw [scanRest_of_none hn] at h
      obtain rfl : t = r := congrArg Prod.snd h
      exact .nil hr
    | some a =>
      rw [scanRest_of_some hn] at h
      cases h
  | cons k ks ih =>
    cases hn : next? t with
    | none =>
      rw [scanRest_of_none hn] at h
      cases h
    | some a =>
      obtain ⟨l, v⟩ := a
      rw [scanRest_of_some hn] at h
      obtain ⟨hlk, hrest⟩ := Prod.mk.inj h
      obtain ⟨rfl, hks⟩ := List.cons.inj hlk
      have htail : Rendering Text.isSeparator ks v := ih (Prod.ext hks hrest)
      obtain ⟨w, u, rfl, hw, hu, hlengthens⟩ := exists_spells_of_next? hn
      exact .cons hw hu (fun m hm hlm => htail.exists_gap_of_clings hm hlm hlengthens) htail

/-- A text is a rendering of the tokens as which it is read. -/
theorem rendering_of_scan (h : scan t = .ok ks) : Rendering Text.isSeparator ks t := by
  cases hs : scanRest t with
  | mk ls r =>
    simp only [scan, hs] at h
    split at h
    · next hr =>
      obtain rfl := Except.ok.inj h
      refine rendering_of_scanRest hs (List.all_eq_true.2 fun c hc => ?_)
      simpa using List.find?_eq_none.1 hr c hc
    · cases h

/-! ## Texts of admitted characters -/

theorem exists_spells_singleton {c : Char} (hc : isPart c = true) : ∃ k, Spells k [c] := by
  simp only [isPart, Bool.or_eq_true, List.contains_eq_mem, decide_eq_true_eq, List.mem_cons,
    List.not_mem_nil, or_false] at hc
  obtain (hc | hc) | rfl | rfl | rfl | rfl | rfl | rfl | rfl := hc
  · exact ⟨_, .name (x := [c]) (by simp [Text.isName, hc])⟩
  · have hn : Text.isNumeral [c] = true := by simp [Text.isNumeral, hc]
    exact ⟨_, .int hn⟩
  · exact ⟨_, .op .add⟩
  · exact ⟨_, .op .sub⟩
  · exact ⟨_, .op .mul⟩
  · exact ⟨_, .op .div⟩
  · exact ⟨_, .op .pow⟩
  · exact ⟨_, .lparen⟩
  · exact ⟨_, .rparen⟩

/-- A character that clings to a token is part of a longer token of the same kind. -/
theorem Spells.cons {c : Char} {u : Text} {k l : Token} (hc : Spells k [c]) (hu : Spells l u)
    (h : clings k l = true) : ∃ m, Spells m (c :: u) ∧ ∀ n, clings m n = clings l n := by
  cases hu with
  | int hds =>
    cases k <;> cases h
    cases hc with
    | int hd =>
      have hn : Text.isNumeral (c :: u) = true := by
        simpa [Text.isNumeral] using ⟨(Text.isNumeral_iff.1 hd).2 c List.mem_cons_self,
          (Text.isNumeral_iff.1 hds).2⟩
      exact ⟨_, .int hn, fun n => by cases n <;> rfl⟩
  | name hx =>
    cases k <;> cases h
    cases hc with
    | name hd =>
      refine ⟨_, .name (x := c :: u) ?_, fun n => by cases n <;> rfl⟩
      simpa [Text.isName] using ⟨(Text.isName_iff.1 hd).2 c List.mem_cons_self,
        (Text.isName_iff.1 hx).2⟩
  | op o => cases k <;> cases h
  | lparen => cases k <;> cases h
  | rparen => cases k <;> cases h

theorem Rendering.cons_gap (hgap : ∀ c, gap c = true → Text.isBlank c = true)
    (h : Rendering gap ks t) {c : Char} (hc : gap c = true) : Rendering gap ks (c :: t) := by
  cases h with
  | nil hw => exact .nil (by simpa [hgap c hc] using hw)
  | cons hw hu apart ht =>
    exact .cons (w := c :: _) (by simpa [hc] using hw) hu apart ht

theorem Rendering.append_gap (hgap : ∀ c, gap c = true → Text.isBlank c = true)
    (h : Rendering gap ks t) {w : Text} (hw : ∀ c ∈ w, gap c = true) :
    Rendering gap ks (w ++ t) := by
  induction w with
  | nil => exact h
  | cons c w ih =>
    exact (ih fun d hd => hw d (List.mem_cons_of_mem c hd)).cons_gap hgap (hw c List.mem_cons_self)

theorem Rendering.exists_cons (h : Rendering gap ks t) {c : Char} (hc : isPart c = true) :
    ∃ ls, Rendering gap ls (c :: t) := by
  obtain ⟨k, hk⟩ := exists_spells_singleton hc
  cases h with
  | @nil w hw =>
    exact ⟨[k], .cons (w := []) (u := [c]) rfl hk (fun l hl => by cases hl) (.nil hw)⟩
  | @cons w u t l ks hw hu apart ht =>
    cases w with
    | cons d w =>
      -- the blank before the next token keeps the new one apart
      refine ⟨k :: l :: ks, .cons (w := []) (u := [c]) rfl hk (fun _ _ _ => ?_)
        (.cons hw hu apart ht)⟩
      exact ⟨d, rfl, List.all_eq_true.1 hw d List.mem_cons_self⟩
    | nil =>
      cases hkl : clings k l with
      | true =>
        obtain ⟨m, hm, hclings⟩ := hk.cons hu hkl
        refine ⟨m :: ks, .cons (w := []) rfl hm (fun n hn hmn => ?_) ht⟩
        exact apart n hn (hclings n ▸ hmn)
      | false =>
        refine ⟨k :: l :: ks, .cons (w := []) (u := [c]) rfl hk (fun n hn hkn => ?_)
          (.cons hw hu apart ht)⟩
        obtain rfl := Option.some.inj hn
        rw [hkl] at hkn
        cases hkn

/-- Every text of gaps and characters of tokens spells some tokens. -/
theorem exists_rendering (hgap : ∀ c, gap c = true → Text.isBlank c = true)
    (h : ∀ c ∈ t, gap c = true ∨ isPart c = true) : ∃ ks, Rendering gap ks t := by
  induction t with
  | nil => exact ⟨[], .nil rfl⟩
  | cons c t ih =>
    obtain ⟨ks, hks⟩ := ih fun d hd => h d (List.mem_cons_of_mem c hd)
    obtain hc | hc := h c List.mem_cons_self
    · exact ⟨ks, hks.cons_gap hgap hc⟩
    · exact hks.exists_cons hc

/-- A text whose blanks are separators is refused for its first character that stands in no
token. -/
theorem scan_of_unexpected {c : Char}
    (hsep : ∀ d ∈ t, Text.isBlank d = true → Text.isSeparator d = true)
    (h : t.find? (fun d => !Text.isBlank d && !isPart d) = some c) : scan t = .error ⟨c⟩ := by
  obtain ⟨hc, a, b, rfl, ha⟩ := List.find?_eq_some_iff_append.1 h
  simp only [Bool.and_eq_true, Bool.not_eq_true'] at hc
  have hparts : ∀ d ∈ a, Text.isSeparator d = true ∨ isPart d = true := by
    intro d hd
    cases hb : Text.isBlank d with
    | true => exact Or.inl (hsep d (List.mem_append_left _ hd) hb)
    | false => exact Or.inr (by simpa [hb] using ha d hd)
  obtain ⟨ks, hks⟩ := exists_rendering (fun _ => Text.isBlank_of_isSeparator) hparts
  exact scan_append_cons hks hc.2 hc.1 b

/-! ## The tokens of a text -/

/-- The text with a space in place of each blank. -/
def spaced (t : Text) : Text := t.map fun c => if Text.isBlank c then ' ' else c

theorem spaced_of_isPart {u : Text} (h : ∀ c ∈ u, isPart c = true) : spaced u = u := by
  refine (List.map_congr_left fun c hc => ?_).trans (List.map_id' u)
  rw [isBlank_eq_false_of_isPart (h c hc)]
  rfl

theorem all_spaced {w : Text} (hw : w.all Text.isBlank = true) :
    (spaced w).all Text.isSeparator = true := by
  rw [spaced, List.all_map, List.all_eq_true]
  intro c hc
  rw [Function.comp, if_pos (List.all_eq_true.1 hw c hc)]
  rfl

/-- Whatever the blanks are, the text with spaces in their place spells the same tokens. -/
theorem rendering_spaced (h : Rendering Text.isBlank ks t) :
    Rendering Text.isSeparator ks (spaced t) := by
  induction h with
  | nil hw =>
    refine .nil (List.all_eq_true.2 fun c hc => ?_)
    exact Text.isBlank_of_isSeparator (List.all_eq_true.1 (all_spaced hw) c hc)
  | @cons w u t k ks hw hu apart ht ih =>
    have happend : spaced (w ++ u ++ t) = spaced w ++ u ++ spaced t := by
      rw [spaced, List.map_append, List.map_append, ← spaced, ← spaced, ← spaced,
        spaced_of_isPart hu.isPart]
    rw [happend]
    refine .cons (all_spaced hw) hu (fun l hl hkl => ?_) ih
    obtain ⟨c, hc, hb⟩ := apart l hl hkl
    refine ⟨' ', ?_, rfl⟩
    rw [spaced, List.head?_map, Option.mem_def.1 hc]
    simp [hb]

/-- A text spells one list of tokens. -/
theorem Rendering.unique {ls : List Token} (h : Rendering Text.isBlank ks t)
    (h' : Rendering Text.isBlank ls t) : ks = ls := by
  have hks := scan_of_rendering (rendering_spaced h)
  rw [scan_of_rendering (rendering_spaced h')] at hks
  exact (Except.ok.inj hks).symm

end Token

end LineCalc
