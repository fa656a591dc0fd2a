import LineCalc.Bracket
import LineCalc.Proofs.Scan
import LineCalc.Store.Substitute
import LineCalc.Text.Names

/-!
# Names and their values

The names in a text are the names among the tokens that it spells (`namesIn_of_rendering`).
Substitution puts a value in place of each of them (`substitute_eq`), and a text in which the names
are replaced by the numerals of these values, in parentheses, spells just the tokens that
substitution gives (`rendering_mapNames`).
-/

namespace LineCalc

namespace Text

/-! ## The pieces of a text -/

theorem pieces_cons_of_not_isAlpha {c : Char} (h : c.isAlpha = false) (t : Text) :
    pieces (c :: t) = .char c :: pieces t := by
  simp [pieces, h]

theorem pieces_cons_of_isAlpha {c : Char} (h : c.isAlpha = true) (t : Text) :
    pieces (c :: t) = Piece.consLetter c (pieces t) := by
  simp [pieces, h]

theorem pieces_append {w : Text} (hw : ∀ c ∈ w, c.isAlpha = false) (t : Text) :
    pieces (w ++ t) = w.map .char ++ pieces t := by
  induction w with
  | nil => rfl
  | cons c w ih =>
    rw [List.cons_append, pieces_cons_of_not_isAlpha (hw c List.mem_cons_self),
      ih fun d hd => hw d (List.mem_cons_of_mem c hd)]
    rfl

/-- A maximal run of letters is one piece. -/
theorem pieces_name {x : Name} (hx : x.isName = true) {t : Text}
    (ht : ∀ c ∈ t.head?, c.isAlpha = false) : pieces (x ++ t) = .name x :: pieces t := by
  obtain ⟨hne, ha⟩ := isName_iff.1 hx
  induction x with
  | nil => exact absurd rfl hne
  | cons c x ih =>
    rw [List.cons_append, pieces_cons_of_isAlpha (ha c List.mem_cons_self)]
    cases x with
    | nil =>
      cases t with
      | nil => rfl
      | cons d t =>
        rw [List.nil_append, pieces_cons_of_not_isAlpha (ht d rfl)]
        rfl
    | cons d x =>
      have hx' : ∀ e ∈ d :: x, e.isAlpha = true := fun e he => ha e (List.mem_cons_of_mem c he)
      rw [ih (isName_iff.2 ⟨List.cons_ne_nil d x, hx'⟩) (List.cons_ne_nil d x) hx']
      rfl

/-- The name that the piece is. -/
def Piece.name? : Piece → Option Name
  | .name x => some x
  | .char _ => none

theorem namesIn_eq (t : Text) : namesIn t = (pieces t).filterMap Piece.name? :=
  rfl

theorem filterMap_name?_chars (w : Text) (ps : List Piece) :
    (w.map Piece.char ++ ps).filterMap Piece.name? = ps.filterMap Piece.name? := by
  rw [List.filterMap_append, List.filterMap_map, List.filterMap_eq_nil_iff.2, List.nil_append]
  exact fun _ _ => rfl

/-! ## What replacing names keeps -/

variable {f : Name → Text}

/-- What `mapNames` puts in place of a piece. -/
def Piece.replace (f : Name → Text) : Piece → Text
  | .name x => f x
  | .char c => [c]

theorem mapNames_eq (f : Name → Text) (t : Text) :
    mapNames f t = (pieces t).flatMap (Piece.replace f) :=
  rfl

theorem mapNames_cons {c : Char} (h : c.isAlpha = false) (t : Text) :
    mapNames f (c :: t) = c :: mapNames f t := by
  rw [mapNames_eq, pieces_cons_of_not_isAlpha h]
  rfl

theorem mapNames_append {w : Text} (hw : ∀ c ∈ w, c.isAlpha = false) (t : Text) :
    mapNames f (w ++ t) = w ++ mapNames f t := by
  induction w with
  | nil => rfl
  | cons c w ih =>
    rw [List.cons_append, mapNames_cons (hw c List.mem_cons_self),
      ih fun d hd => hw d (List.mem_cons_of_mem c hd)]
    rfl

theorem mapNames_of_not_isAlpha {w : Text} (hw : ∀ c ∈ w, c.isAlpha = false) :
    mapNames f w = w := by
  rw [← List.append_nil w, mapNames_append hw]
  rfl

theorem mapNames_name {x : Name} (hx : x.isName = true) {t : Text}
    (ht : ∀ c ∈ t.head?, c.isAlpha = false) : mapNames f (x ++ t) = f x ++ mapNames f t := by
  rw [mapNames_eq, pieces_name hx ht]
  rfl

/-- Whatever is insensitive to replaced names is insensitive to a letter. -/
theorem replace_consLetter {α : Type} {g : Text → α}
    (hg : ∀ x r, g (f x ++ r) = g r) (c : Char) (ps : List Piece) :
    g ((Piece.consLetter c ps).flatMap (Piece.replace f)) = g (ps.flatMap (Piece.replace f)) := by
  cases ps with
  | nil =>
    change g (f [c] ++ []) = g []
    exact hg [c] []
  | cons p ps =>
    cases p with
    | name x =>
      change g (f (c :: x) ++ _) = g (f x ++ _)
      rw [hg, hg]
    | char d => exact hg [c] _

theorem filter_mapNames {p : Char → Bool} (hp : ∀ c, c.isAlpha = true → p c = false)
    (hf : ∀ x, ∀ c ∈ f x, p c = false) (t : Text) : (mapNames f t).filter p = t.filter p := by
  have hfilter (x : Name) (r : Text) : (f x ++ r).filter p = r.filter p := by
    rw [List.filter_append, List.filter_eq_nil_iff.2, List.nil_append]
    intro c hc
    simp [hf x c hc]
  induction t with
  | nil => rfl
  | cons c t ih =>
    cases hc : c.isAlpha with
    | false => rw [mapNames_cons hc, List.filter_cons, List.filter_cons, ih]
    | true =>
      rw [mapNames_eq, pieces_cons_of_isAlpha hc, replace_consLetter hfilter, ← mapNames_eq, ih,
        List.filter_cons_of_neg (by simp [hp c hc])]

theorem closes_mapNames (hf : ∀ x r d, Bracket.closes d (f x ++ r) = Bracket.closes d r) (d : Nat)
    (t : Text) : Bracket.closes d (mapNames f t) = Bracket.closes d t := by
  induction t generalizing d with
  | nil => rfl
  | cons c t ih =>
    cases hc : c.isAlpha with
    | false =>
      rw [mapNames_cons hc, Bracket.closes.eq_def d (c :: mapNames f t),
        Bracket.closes.eq_def d (c :: t)]
      simp only [ih]
    | true =>
      have hl : c ≠ '(' := by rintro rfl; cases hc
      have hr : c ≠ ')' := by rintro rfl; cases hc
      rw [mapNames_eq, pieces_cons_of_isAlpha hc, replace_consLetter (hf · · d), ← mapNames_eq, ih,
        Bracket.closes.eq_def d (c :: t)]
      simp [hl, hr]

end Text

namespace Token

/-! ## The names of tokens -/

/-- The name that the token is. -/
def name? : Token → Option Name
  | name x => some x
  | _ => none

theorem eq_name_of_name? {k : Token} {x : Name} (h : k.name? = some x) : k = name x := by
  cases k <;> cases h
  rfl

/-- The names among tokens, in order. -/
def names (ks : List Token) : List Name := ks.filterMap name?

/-- The tokens that stand for a token when names have values. -/
def withValue (value : Name → Int) : Token → List Token
  | name x => Store.valueTokens (value x)
  | k => [k]

/-- The tokens with the values of the names in place of the names. -/
def withValues (value : Name → Int) (ks : List Token) : List Token := ks.flatMap (withValue value)

theorem withValues_cons (value : Name → Int) (k : Token) (ks : List Token) :
    withValues value (k :: ks) = withValue value k ++ withValues value ks :=
  rfl

theorem withValue_of_ne {value : Name → Int} {k : Token} (h : k.name? = none) :
    withValue value k = [k] := by
  cases k <;> first | rfl | cases h

theorem withValues_append (value : Name → Int) (ks ls : List Token) :
    withValues value (ks ++ ls) = withValues value ks ++ withValues value ls :=
  List.flatMap_append

variable {gap : Char → Bool} {ks : List Token} {t : Text}

theorem isAlpha_eq_false_of_isBlank {c : Char} (h : Text.isBlank c = true) : c.isAlpha = false := by
  cases ha : c.isAlpha with
  | false => rfl
  | true =>
    rw [isBlank_eq_false_of_isPart (isPart_of_isAlpha ha)] at h
    cases h

/-- Only names are spelled with letters. -/
theorem Spells.not_isAlpha {k : Token} {u : Text} (h : Spells k u) (hk : k.name? = none) :
    ∀ c ∈ u, c.isAlpha = false := by
  intro c hc
  cases h with
  | int h => exact isAlpha_eq_false_of_isDigit ((Text.isNumeral_iff.1 h).2 c hc)
  | name h => cases hk
  | op o =>
    rw [List.mem_singleton.1 hc]
    exact not_isAlpha_symbol o
  | lparen => rw [List.mem_singleton.1 hc]; rfl
  | rparen => rw [List.mem_singleton.1 hc]; rfl

/-- The names in a text are those of the tokens that it spells. -/
theorem namesIn_of_rendering (hgap : ∀ c, gap c = true → Text.isBlank c = true)
    (h : Rendering gap ks t) : Text.namesIn t = names ks := by
  induction h with
  | @nil w hw =>
    have hb : ∀ c ∈ w, c.isAlpha = false := fun c hc =>
      isAlpha_eq_false_of_isBlank (List.all_eq_true.1 hw c hc)
    rw [← List.append_nil w, Text.namesIn_eq, Text.pieces_append hb, Text.filterMap_name?_chars]
    rfl
  | @cons w u t k ks hw hu apart ht ih =>
    have hb : ∀ c ∈ w, c.isAlpha = false := fun c hc =>
      isAlpha_eq_false_of_isBlank (hgap c (List.all_eq_true.1 hw c hc))
    rw [List.append_assoc, Text.namesIn_eq, Text.pieces_append hb, Text.filterMap_name?_chars]
    cases hk : k.name? with
    | none =>
      rw [Text.pieces_append (hu.not_isAlpha hk), Text.filterMap_name?_chars, ← Text.namesIn_eq, ih,
        names, names, List.filterMap_cons_none hk]
    | some x =>
      obtain rfl := eq_name_of_name? hk
      cases hu with
      | name hx =>
        rw [Text.pieces_name hx (ht.lengthens_head hgap apart)]
        exact congrArg (u :: ·) ih

/-! ## Values for names -/

/-- The text that stands for a value: its numeral in parentheses. -/
def valueText (v : Int) : Text := '(' :: Numeral.ofInt v ++ [')']

theorem valueTokens_natCast (n : Nat) : Store.valueTokens n = [lparen, int n, rparen] :=
  if_neg (by omega)

theorem head?_valueTokens (v : Int) : (Store.valueTokens v).head? = some lparen := by
  unfold Store.valueTokens
  split <;> rfl

theorem spells_ofNat (n : Nat) : Spells (.int n) (Numeral.ofNat n) := by
  have h := Spells.int (Numeral.isNumeral_ofNat n)
  rwa [Numeral.value_ofNat] at h

theorem Rendering.cons_tight {k : Token} {u : Text} (hu : Spells k u)
    (hk : ∀ l, clings k l = false) (h : Rendering gap ks t) : Rendering gap (k :: ks) (u ++ t) := by
  refine .cons (w := []) rfl hu (fun l _ hl => ?_) h
  rw [hk] at hl
  cases hl

theorem rendering_valueText (v : Int) (h : Rendering gap ks t) :
    Rendering gap (Store.valueTokens v ++ ks) (valueText v ++ t) := by
  have hr : Rendering gap (.rparen :: ks) ([')'] ++ t) := h.cons_tight .rparen fun _ => rfl
  have hn (n : Nat) : Rendering gap (.int n :: .rparen :: ks) (Numeral.ofNat n ++ ([')'] ++ t)) :=
    .cons (w := []) rfl (spells_ofNat n) (fun l hl hnl => by cases hl; cases hnl) hr
  cases v with
  | ofNat n =>
    have := (hn n).cons_tight .lparen fun _ => rfl
    simpa [valueTokens_natCast, valueText, Numeral.ofInt] using this
  | negSucc n =>
    have := ((hn (n + 1)).cons_tight (.op .sub) fun _ => rfl).cons_tight .lparen fun _ => rfl
    simpa [Store.valueTokens, valueText, Numeral.ofInt, Operator.symbol] using this

/-- Substitution moves no token but parentheses to the front. -/
theorem head?_withValues {value : Name → Int} {k l : Token} (hkl : clings k l = true)
    (h : l ∈ (withValues value ks).head?) : l ∈ ks.head? := by
  cases ks with
  | nil => cases h
  | cons m ks =>
    rw [withValues_cons] at h
    cases m with
    | name x =>
      rw [withValue, List.head?_append, head?_valueTokens] at h
      obtain rfl := Option.some.inj h
      cases k <;> cases hkl
    | int n => exact h
    | op o => exact h
    | lparen => exact h
    | rparen => exact h

/-- The text with the numerals of values in place of the names spells the tokens with these
values. -/
theorem rendering_mapNames (value : Name → Int) (h : Rendering Text.isBlank ks t) :
    Rendering Text.isBlank (withValues value ks)
      (Text.mapNames (fun x => valueText (value x)) t) := by
  induction h with
  | @nil w hw =>
    rw [Text.mapNames_of_not_isAlpha fun c hc =>
      isAlpha_eq_false_of_isBlank (List.all_eq_true.1 hw c hc)]
    exact .nil hw
  | @cons w u t k ks hw hu apart ht ih =>
    have hb : ∀ c ∈ w, c.isAlpha = false := fun c hc =>
      isAlpha_eq_false_of_isBlank (List.all_eq_true.1 hw c hc)
    rw [List.append_assoc, Text.mapNames_append hb]
    cases hk : k.name? with
    | none =>
      rw [Text.mapNames_append (hu.not_isAlpha hk), withValues_cons, withValue_of_ne hk,
        ← List.append_assoc]
      refine .cons hw hu (fun l hl hkl => ?_) ih
      obtain ⟨c, hc, hcb⟩ := apart l (head?_withValues hkl hl) hkl
      cases t with
      | nil => cases hc
      | cons d t =>
        obtain rfl : d = c := Option.some.inj hc
        exact ⟨d, by rw [Text.mapNames_cons (isAlpha_eq_false_of_isBlank hcb)]; rfl, hcb⟩
    | some x =>
      obtain rfl := eq_name_of_name? hk
      cases hu with
      | name hx =>
        rw [Text.mapNames_name hx (ht.lengthens_head (fun _ h => h) apart)]
        exact (rendering_valueText (value u) ih).append_gap (fun _ h => h) (List.all_eq_true.1 hw)

theorem names_cons (k : Token) (ks : List Token) :
    names (k :: ks) = k.name?.toList ++ names ks := by
  cases k <;> rfl

theorem names_append (ks ls : List Token) : names (ks ++ ls) = names ks ++ names ls :=
  List.filterMap_append

theorem names_cons_name (x : Name) (ks : List Token) : names (name x :: ks) = x :: names ks :=
  rfl

theorem names_cons_of_ne {k : Token} (h : k.name? = none) (ks : List Token) :
    names (k :: ks) = names ks :=
  List.filterMap_cons_none h

theorem substitute_cons_of_ne {k : Token} (h : k.name? = none) (s : Store) (ks : List Token) :
    s.substitute (k :: ks) = (k :: ·) <$> s.substitute ks := by
  cases k with
  | name x => cases h
  | int n => simp only [Store.substitute]; cases s.substitute ks <;> rfl
  | op o => simp only [Store.substitute]; cases s.substitute ks <;> rfl
  | lparen => simp only [Store.substitute]; cases s.substitute ks <;> rfl
  | rparen => simp only [Store.substitute]; cases s.substitute ks <;> rfl

/-- Substitution succeeds if every name is bound. -/
theorem substitute_eq {s : Store} {value : Name → Int} {ks : List Token}
    (h : ∀ x ∈ names ks, s.get? x = some (value x)) :
    s.substitute ks = .ok (withValues value ks) := by
  induction ks with
  | nil => rfl
  | cons k ks ih =>
    cases hk : k.name? with
    | none =>
      rw [names_cons_of_ne hk] at h
      rw [substitute_cons_of_ne hk, ih h, withValues_cons, withValue_of_ne hk]
      rfl
    | some x =>
      obtain rfl := eq_name_of_name? hk
      rw [names_cons_name] at h
      have hx := h x List.mem_cons_self
      rw [Store.substitute, Store.resolve, hx, ih fun y hy => h y (List.mem_cons_of_mem x hy)]
      rfl

theorem names_withValues (value : Name → Int) (ks : List Token) :
    names (withValues value ks) = [] := by
  induction ks with
  | nil => rfl
  | cons k ks ih =>
    have hk : names (withValue value k) = [] := by
      cases k with
      | name x =>
        simp only [withValue, Store.valueTokens]
        split <;> rfl
      | int n => rfl
      | op o => rfl
      | lparen => rfl
      | rparen => rfl
    rw [withValues_cons, names_append, hk, ih]
    rfl

theorem substitute_of_names_eq_nil {s : Store} {ks : List Token} (h : names ks = []) :
    s.substitute ks = .ok ks := by
  induction ks with
  | nil => rfl
  | cons k ks ih =>
    cases hk : k.name? with
    | none =>
      rw [names_cons_of_ne hk] at h
      rw [substitute_cons_of_ne hk, ih h]
      rfl
    | some x =>
      rw [names_cons, hk] at h
      cases h

/-- Substitution fails at the first name that is not bound. -/
theorem substitute_eq_error {s : Store} {x : Name} {ks : List Token}
    (h : (names ks).find? (fun y => (s.get? y).isNone) = some x) :
    s.substitute ks = .error ⟨x⟩ := by
  induction ks with
  | nil => cases h
  | cons k ks ih =>
    cases hk : k.name? with
    | none =>
      rw [names_cons_of_ne hk] at h
      rw [substitute_cons_of_ne hk, ih h]
      rfl
    | some y =>
      obtain rfl := eq_name_of_name? hk
      rw [names_cons_name, List.find?_cons] at h
      rw [Store.substitute, Store.resolve]
      cases hy : s.get? y with
      | none =>
        rw [hy] at h
        obtain rfl : y = x := Option.some.inj h
        rfl
      | some v =>
        rw [hy] at h
        rw [ih h]
        rfl

end Token

end LineCalc
