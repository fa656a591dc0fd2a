import LineCalc.Bracket.Dyck
import LineCalc.Expression
import LineCalc.Proofs.Names
import LineCalc.Proofs.NetSigns

/-!
# From a text to its value

The value of a text is the value of the tokens that it spells, with their signs merged and the
values of the names in place of the names (`value_of_rendering`).  Hence it makes no difference
whether a store gives a name its value or the text has the numeral of that value, in parentheses, in
place of the name (`value_mapNames`).
-/

namespace LineCalc

namespace Token

/-! ## Net signs and values -/

theorem names_absorb (s : Sign) (ks : List Token) : names (absorb s ks) = names ks := by
  cases ks with
  | nil => rfl
  | cons k ks =>
    cases hk : k.sign? with
    | none => rw [absorb_cons s hk, names_cons_of_ne rfl]
    | some r =>
      obtain rfl := sign?_eq_some_iff.1 hk
      rw [absorb_sign, names_cons_of_ne rfl, names_cons_of_ne rfl]

theorem names_mergeSigns (ks : List Token) : names (mergeSigns ks) = names ks := by
  induction ks with
  | nil => rfl
  | cons k ks ih =>
    cases hk : k.sign? with
    | none => rw [mergeSigns_cons hk, names_cons, names_cons, ih]
    | some s =>
      obtain rfl := sign?_eq_some_iff.1 hk
      rw [mergeSigns_sign, names_absorb, ih, names_cons_of_ne rfl]

theorem mergeSigns_valueTokens (v : Int) (ks : List Token) :
    mergeSigns (Store.valueTokens v ++ ks) = Store.valueTokens v ++ mergeSigns ks := by
  unfold Store.valueTokens
  split <;> rfl

theorem absorb_withValues (value : Name → Int) (s : Sign) (ks : List Token) :
    absorb s (withValues value ks) = withValues value (absorb s ks) := by
  cases ks with
  | nil => rfl
  | cons k ks =>
    cases hn : k.name? with
    | none =>
      rw [withValues_cons, withValue_of_ne hn, List.singleton_append]
      cases hk : k.sign? with
      | none =>
        rw [absorb_cons s hk, absorb_cons s hk, withValues_cons, withValues_cons,
          withValue_of_ne hn]
        rfl
      | some r =>
        obtain rfl := sign?_eq_some_iff.1 hk
        rw [absorb_sign, absorb_sign]
        rfl
    | some x =>
      obtain rfl := eq_name_of_name? hn
      rw [absorb_cons s rfl, withValues_cons]
      change absorb s (Store.valueTokens (value x) ++ _) = _ :: (Store.valueTokens (value x) ++ _)
      unfold Store.valueTokens
      split <;> rfl

theorem mergeSigns_withValues (value : Name → Int) (ks : List Token) :
    mergeSigns (withValues value ks) = withValues value (mergeSigns ks) := by
  induction ks with
  | nil => rfl
  | cons k ks ih =>
    rw [withValues_cons]
    cases hn : k.name? with
    | none =>
      rw [withValue_of_ne hn, List.singleton_append]
      cases hk : k.sign? with
      | none =>
        rw [mergeSigns_cons hk, mergeSigns_cons hk, withValues_cons, withValue_of_ne hn, ih]
        rfl
      | some s =>
        obtain rfl := sign?_eq_some_iff.1 hk
        rw [mergeSigns_sign, mergeSigns_sign, ih, absorb_withValues]
    | some x =>
      obtain rfl := eq_name_of_name? hn
      rw [withValue, mergeSigns_valueTokens, ih]
      rfl

end Token

namespace Expression

open Token

variable {s : Store} {ks : List Token} {t : Text}

/-! ## The stages before the value -/

theorem visible_of_paren {c : Char} (h : (decide (c = '(') || decide (c = ')')) = true) :
    Text.isBlank c = false ∧ Sign.ofSymbol? c = none := by
  rw [Bool.or_eq_true, decide_eq_true_iff, decide_eq_true_iff] at h
  obtain rfl | rfl := h <;> decide

theorem visible_of_unexpected {c : Char} (h : (!Text.isBlank c && !isPart c) = true) :
    Text.isBlank c = false ∧ Sign.ofSymbol? c = none := by
  simp only [Bool.and_eq_true, Bool.not_eq_true'] at h
  refine ⟨h.1, Option.eq_none_iff_forall_ne_some.2 fun r hr => ?_⟩
  obtain rfl := Sign.ofSymbol?_eq_some_iff.1 hr
  cases r <;> cases h.2

theorem balanced_collapse (t : Text) :
    Bracket.balanced (Sign.collapse t) = true ↔ Bracket.Dyck (Bracket.parens t) := by
  have hparens : Bracket.parens (Sign.collapse t) = Bracket.parens t :=
    Sign.filter_collapse (fun _ => visible_of_paren) t
  rw [Bracket.balanced_iff, hparens]

theorem value_of_not_dyck (h : ¬ Bracket.Dyck (Bracket.parens t)) :
    value s t = .error .unbalanced := by
  rw [← balanced_collapse] at h
  exact if_neg h

/-- A text is refused for its first unexpected character, also when its signs have been
collapsed. -/
theorem scan_collapse_of_unexpected {c : Char}
    (h : t.find? (fun d => !Text.isBlank d && !isPart d) = some c) :
    scan (Sign.collapse t) = .error ⟨c⟩ := by
  have hfind : (Sign.collapse t).find? (fun d => !Text.isBlank d && !isPart d) = some c := by
    rw [← List.head?_filter, Sign.filter_collapse fun _ => visible_of_unexpected,
      List.head?_filter, h]
  refine scan_of_unexpected (fun d hd hblank => ?_) hfind
  rw [Sign.eq_space_of_mem_collapseFrom hblank _ _ hd]
  rfl

theorem value_of_unexpected {c : Char} (hb : Bracket.Dyck (Bracket.parens t))
    (h : t.find? (fun d => !Text.isBlank d && !isPart d) = some c) :
    value s t = .error (.scan ⟨c⟩) := by
  rw [← balanced_collapse] at hb
  rw [value, if_pos hb, scan_collapse_of_unexpected h]
  rfl

/-- A text with balanced parentheses has the value of the tokens that it spells. -/
theorem value_of_rendering (hb : Bracket.Dyck (Bracket.parens t))
    (h : Rendering Text.isBlank ks t) :
    value s t = (do
      let us ← (s.substitute (mergeSigns (.op .add :: ks))).mapError Fault.unknownVariable
      tokensValue us) := by
  rw [← balanced_collapse] at hb
  rw [value, if_pos hb, scan_of_rendering (Sign.rendering_collapse h)]
  rfl

/-- A text without unexpected characters spells some tokens. -/
theorem exists_rendering_of_find? (h : t.find? (fun d => !Text.isBlank d && !isPart d) = none) :
    ∃ ks, Rendering Text.isBlank ks t := by
  refine exists_rendering (fun _ h => h) fun c hc => ?_
  have := List.find?_eq_none.1 h c hc
  cases hb : Text.isBlank c with
  | true => exact Or.inl rfl
  | false => simpa [hb] using this

/-! ## Numerals in place of names -/

theorem mem_ofInt {c : Char} {v : Int} (h : c ∈ Numeral.ofInt v) : c = '-' ∨ c.isDigit = true := by
  have hn (n : Nat) (h : c ∈ Numeral.ofNat n) : c.isDigit = true :=
    (Text.isNumeral_iff.1 (Numeral.isNumeral_ofNat n)).2 c h
  cases v with
  | ofNat n => exact Or.inr (hn n h)
  | negSucc n =>
    obtain rfl | h := List.mem_cons.1 h
    · exact Or.inl rfl
    · exact Or.inr (hn (n + 1) h)

theorem mem_valueText {c : Char} {v : Int} (h : c ∈ valueText v) : isPart c = true := by
  simp only [valueText, List.cons_append, List.mem_cons, List.mem_append, List.not_mem_nil,
    or_false] at h
  obtain rfl | h | rfl := h
  · rfl
  · obtain rfl | h := mem_ofInt h
    · rfl
    · exact isPart_of_isDigit h
  · rfl

theorem closes_valueText (v : Int) (r : Text) (d : Nat) :
    Bracket.closes d (valueText v ++ r) = Bracket.closes d r := by
  have hnone : (Numeral.ofInt v).filter (fun c => c = '(' || c = ')') = [] := by
    refine List.filter_eq_nil_iff.2 fun c hc hp => ?_
    have hd := mem_ofInt hc
    simp only [Bool.or_eq_true, decide_eq_true_eq] at hp
    obtain rfl | rfl := hp <;> obtain h | h := hd <;> cases h
  have hp : Bracket.parens (valueText v ++ r) = ['(', ')'] ++ Bracket.parens r := by
    simp [Bracket.parens, valueText, hnone]
  rw [← Bracket.closes_parens, hp, Bracket.closes_dyck_append (u := ['(', ')']) (.cons .nil .nil),
    Bracket.closes_parens]

theorem dyck_mapNames (v : Name → Int) (t : Text) :
    Bracket.Dyck (Bracket.parens (Text.mapNames (fun x => valueText (v x)) t)) ↔
      Bracket.Dyck (Bracket.parens t) := by
  rw [← Bracket.balanced_iff, ← Bracket.balanced_iff, Bracket.balanced, Bracket.balanced,
    Text.closes_mapNames fun x => closes_valueText (v x)]

theorem find?_mapNames (v : Name → Int) (t : Text) :
    (Text.mapNames (fun x => valueText (v x)) t).find? (fun d => !Text.isBlank d && !isPart d) =
      t.find? (fun d => !Text.isBlank d && !isPart d) := by
  rw [← List.head?_filter, Text.filter_mapNames, List.head?_filter]
  · intro c hc
    simp [isPart_of_isAlpha hc]
  · intro x c hc
    simp [mem_valueText hc]

/-- A store that binds the names in a text gives it the value that the text has by itself with the
numeral of each value, in parentheses, in place of the name. -/
theorem value_mapNames {s : Store} {t : Text} {v : Name → Int}
    (h : ∀ x ∈ Text.namesIn t, s.get? x = some (v x)) (s' : Store) :
    value s t = value s' (Text.mapNames (fun x => '(' :: Numeral.ofInt (v x) ++ [')']) t) := by
  change _ = value s' (Text.mapNames (fun x => valueText (v x)) t)
  by_cases hb : Bracket.Dyck (Bracket.parens t)
  · have hb' := (dyck_mapNames v t).2 hb
    cases hf : t.find? (fun d => !Text.isBlank d && !isPart d) with
    | some c =>
      rw [value_of_unexpected hb hf, value_of_unexpected hb' ((find?_mapNames v t).trans hf)]
    | none =>
      obtain ⟨ks, hks⟩ := exists_rendering_of_find? hf
      have hnames : names (mergeSigns (.op .add :: ks)) = Text.namesIn t := by
        rw [names_mergeSigns, names_cons_of_ne rfl, namesIn_of_rendering (fun _ h => h) hks]
      have hleft : s.substitute (mergeSigns (.op .add :: ks)) =
          .ok (withValues v (mergeSigns (.op .add :: ks))) :=
        substitute_eq fun x hx => h x (hnames ▸ hx)
      have hright : s'.substitute (mergeSigns (.op .add :: withValues v ks)) =
          .ok (withValues v (mergeSigns (.op .add :: ks))) := by
        change s'.substitute (mergeSigns (withValues v (.op .add :: ks))) = _
        rw [mergeSigns_withValues, substitute_of_names_eq_nil (names_withValues v _)]
      rw [value_of_rendering hb hks, value_of_rendering hb' (rendering_mapNames v hks), hleft,
        hright]
  · rw [value_of_not_dyck hb, value_of_not_dyck (mt (dyck_mapNames v t).1 hb)]

theorem value_mapNames_two :
    (∀ x ∈ Text.namesIn "2*-a+(bc12)".toList,
      (Store.ofList [(['a'], -3), (['b', 'c'], 5)]).get? x = some (if x = ['a'] then -3 else 5)) ∧
    value (Store.ofList [(['a'], -3), (['b', 'c'], 5)]) "2*-a+(bc12)".toList = value .empty
      (Text.mapNames (fun x => '(' :: Numeral.ofInt (if x = ['a'] then -3 else 5) ++ [')'])
        "2*-a+(bc12)".toList) :=
  ⟨by decide, value_mapNames (by decide) .empty⟩

end Expression

end LineCalc
