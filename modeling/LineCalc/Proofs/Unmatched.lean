import LineCalc.Proofs.Faults
import Mathlib.Data.Set.Basic
import Mathlib.Order.Nat

/-!
# When tokens have no postfix form

The conversion is stopped by the first token that it cannot read (`foldlM_eq_error_iff_position`): a
name, or a closing parenthesis before which none is open.  It reads all other tokens, in whatever
order they stand, and then fails if a parenthesis has stayed open (`ofTokens_failures`).  So it
succeeds on exactly the tokens without names whose parentheses are balanced
(`exists_ofTokens_iff_closes`), which is what is checked of the text that they come from.
-/

namespace LineCalc

namespace Token

/-- The number of open parentheses after a token, if `d` are open before it. -/
def depthAfter (d : Nat) : Token → Nat
  | lparen => d + 1
  | rparen => d - 1
  | _ => d

/-- The number of parentheses that tokens leave open.  A closing one that closes nothing does not
count. -/
def depth (ks : List Token) : Nat := ks.foldl depthAfter 0

/-- The positions of the names. -/
def namePositions (ks : List Token) : Set Nat := {i | ∃ x, ks[i]? = some (name x)}

/-- The positions of the closing parentheses before which no parenthesis is open. -/
def strayPositions (ks : List Token) : Set Nat :=
  {j | ks[j]? = some rparen ∧ depth (ks.take j) = 0}

end Token

open Token

namespace Postfix

variable {signs : Operator → Bool} {ts : List Token} {y y' : Yard} {k : Token} {i : Nat}

/-! ## The open groups -/

theorem Yard.length_outer_of_step (h : y.step signs k = .ok y') :
    y'.outer.length = depthAfter y.outer.length k := by
  obtain ⟨n, rfl, rfl⟩ | ⟨o, rfl, rfl⟩ | ⟨rfl, rfl⟩ | ⟨ops, outer, rfl, houter, rfl⟩ :=
    Yard.step_cases h
  · rfl
  · rfl
  · rfl
  · rw [houter]
    rfl

theorem Yard.length_outer_of_foldlM (h : ts.foldlM (Yard.step signs) y = .ok y') :
    y'.outer.length = ts.foldl depthAfter y.outer.length := by
  induction ts generalizing y with
  | nil =>
    obtain rfl := Except.ok.inj h
    rfl
  | cons k ts ih =>
    rw [List.foldlM_cons, bind_eq_ok_iff] at h
    obtain ⟨y₁, hy, h⟩ := h
    rw [ih h, Yard.length_outer_of_step hy, List.foldl_cons]

/-! ## The first token that cannot be read -/

theorem step_eq_error_iff_position {e : ConvertError} (hk : ts[i]? = some k)
    (hy : (ts.take i).foldlM (Yard.step signs) .start = .ok y) :
    y.step signs k = .error e ↔ (∃ x, ts[i]? = some (.name x) ∧ e = .unresolvedIdentifier x) ∨
      i ∈ strayPositions ts ∧ e = .unmatchedRightParen := by
  have hdepth : y.outer.length = depth (ts.take i) := Yard.length_outer_of_foldlM hy
  rw [Yard.step_eq_error_iff, ← List.length_eq_zero_iff, hdepth]
  simp [strayPositions, hk, and_assoc]

theorem exists_step_iff_not_mem (hk : ts[i]? = some k)
    (hy : (ts.take i).foldlM (Yard.step signs) .start = .ok y) :
    (∃ y', y.step signs k = .ok y') ↔ i ∉ namePositions ts ∧ i ∉ strayPositions ts := by
  have hok : (∃ y', y.step signs k = .ok y') ↔ ∀ e, y.step signs k ≠ .error e := by
    cases y.step signs k <;> simp
  simp only [hok, ne_eq, step_eq_error_iff_position hk hy]
  constructor
  · intro h
    exact ⟨fun ⟨x, hx⟩ => h _ (Or.inl ⟨x, hx, rfl⟩), fun hj => h _ (Or.inr ⟨hj, rfl⟩)⟩
  · rintro ⟨hname, hstray⟩ e (⟨x, hx, -⟩ | ⟨hj, -⟩)
    · exact hname ⟨x, hx⟩
    · exact hstray hj

/-- The tokens before a position are read if there is neither a name nor a stray parenthesis among
them. -/
theorem exists_foldlM_take_iff (ts : List Token) (i : Nat) :
    (∃ y, (ts.take i).foldlM (Yard.step signs) .start = .ok y) ↔
      ∀ j < i, j ∉ namePositions ts ∧ j ∉ strayPositions ts := by
  induction i with
  | zero => exact iff_of_true ⟨.start, rfl⟩ nofun
  | succ i ih =>
    rw [Nat.forall_lt_succ_right, ← ih, List.take_add_one]
    cases hk : ts[i]? with
    | none => simp [namePositions, strayPositions, hk]
    | some k =>
      have hsingle (y : Yard) : [k].foldlM (Yard.step signs) y = y.step signs k := by simp
      simp only [Option.toList_some, List.foldlM_append, bind_eq_ok_iff, hsingle]
      constructor
      · rintro ⟨y', y, hy, hy'⟩
        exact ⟨⟨y, hy⟩, (exists_step_iff_not_mem hk hy).1 ⟨y', hy'⟩⟩
      · rintro ⟨⟨y, hy⟩, hi⟩
        obtain ⟨y', hy'⟩ := (exists_step_iff_not_mem hk hy).2 hi
        exact ⟨y', y, hy, hy'⟩

/-- The conversion stops at the first name or stray parenthesis. -/
theorem foldlM_eq_error_iff_position {e : ConvertError} :
    ts.foldlM (Yard.step signs) .start = .error e ↔
      ∃ i, (∀ j < i, j ∉ namePositions ts ∧ j ∉ strayPositions ts) ∧
        ((∃ x, ts[i]? = some (.name x) ∧ e = .unresolvedIdentifier x) ∨
          i ∈ strayPositions ts ∧ e = .unmatchedRightParen) := by
  rw [foldlM_eq_error_iff]
  constructor
  · rintro ⟨us, k, vs, y, rfl, hy, hk⟩
    have htake : (us ++ k :: vs).take us.length = us := by simp
    have hget : (us ++ k :: vs)[us.length]? = some k := by simp
    rw [← htake] at hy
    exact ⟨us.length, (exists_foldlM_take_iff _ _).1 ⟨y, hy⟩,
      (step_eq_error_iff_position hget hy).1 hk⟩
  · rintro ⟨i, hi, he⟩
    obtain ⟨y, hy⟩ := (exists_foldlM_take_iff ts i).2 hi
    obtain ⟨k, hk⟩ : ∃ k, ts[i]? = some k := by
      obtain ⟨x, hx, -⟩ | ⟨hj, -⟩ := he
      · exact ⟨_, hx⟩
      · exact ⟨_, hj.1⟩
    refine ⟨ts.take i, k, ts.drop (i + 1), y, ?_, hy, (step_eq_error_iff_position hk hy).2 he⟩
    obtain ⟨hlt, rfl⟩ := List.getElem?_eq_some_iff.1 hk
    rw [← List.drop_eq_getElem_cons, List.take_append_drop]

theorem lt_length_of_mem (h : i ∈ namePositions ts ∨ i ∈ strayPositions ts) : i < ts.length := by
  obtain ⟨x, hx⟩ | ⟨hr, -⟩ := h
  · exact (List.getElem?_eq_some_iff.1 hx).1
  · exact (List.getElem?_eq_some_iff.1 hr).1

/-- All tokens are read if there is neither a name nor a stray parenthesis. -/
theorem exists_foldlM_iff :
    (∃ y, ts.foldlM (Yard.step signs) .start = .ok y) ↔
      namePositions ts = ∅ ∧ strayPositions ts = ∅ := by
  have hall : (∃ y, (ts.take ts.length).foldlM (Yard.step signs) .start = .ok y) ↔ _ :=
    exists_foldlM_take_iff ts ts.length
  rw [List.take_length] at hall
  rw [hall, Set.eq_empty_iff_forall_notMem, Set.eq_empty_iff_forall_notMem]
  constructor
  · intro h
    exact ⟨fun i hi => (h i (lt_length_of_mem (Or.inl hi))).1 hi,
      fun j hj => (h j (lt_length_of_mem (Or.inr hj))).2 hj⟩
  · intro h j _
    exact ⟨h.1 j, h.2 j⟩

theorem ne_of_mem {j : Nat} (hi : i ∈ namePositions ts) (hj : j ∈ strayPositions ts) : i ≠ j := by
  rintro rfl
  obtain ⟨x, hx⟩ := hi
  rw [hj.1] at hx
  cases hx

theorem forall_isLeast_lt_iff {s : Set Nat} : (∀ j, IsLeast s j → i < j) ↔ ∀ j ∈ s, i < j := by
  constructor
  · intro h j hj
    classical
    have hleast : IsLeast s (Nat.find ⟨j, hj⟩) := Nat.isLeast_find ⟨j, hj⟩
    exact (h _ hleast).trans_le (hleast.2 hj)
  · intro h j hj
    exact h j hj.1

/-- Of two sets without a common element, one has the first element of both if that is its least
one and comes before the least one of the other. -/
theorem first_iff_isLeast {s t : Set Nat} (h : ∀ i ∈ s, ∀ j ∈ t, i ≠ j) (i : Nat) :
    (i ∈ s ∧ ∀ j < i, j ∉ s ∧ j ∉ t) ↔ IsLeast s i ∧ ∀ j, IsLeast t j → i < j := by
  rw [forall_isLeast_lt_iff]
  constructor
  · rintro ⟨hi, hbefore⟩
    refine ⟨⟨hi, fun j hj => Nat.le_of_not_lt fun hlt => (hbefore j hlt).1 hj⟩, fun j hj => ?_⟩
    exact Nat.lt_of_le_of_ne (Nat.le_of_not_lt fun hlt => (hbefore j hlt).2 hj) (h i hi j hj)
  · rintro ⟨hleast, hbefore⟩
    refine ⟨hleast.1, fun j hlt => ⟨fun hj => ?_, fun hj => ?_⟩⟩
    · exact Nat.not_le_of_lt hlt (hleast.2 hj)
    · exact Nat.lt_asymm hlt (hbefore j hj)

/-! ## Failures -/

theorem ofTokensWith_eq_error_iff {e : ConvertError} :
    ofTokensWith signs ts = .error e ↔ ts.foldlM (Yard.step signs) .start = .error e ∨
      (∃ y, ts.foldlM (Yard.step signs) .start = .ok y) ∧ depth ts ≠ 0 ∧
        e = .unmatchedLeftParen := by
  rw [ofTokensWith, bind_eq_error_iff]
  refine or_congr_right ?_
  simp only [Yard.finish_eq_error_iff, ne_eq, ← List.length_eq_zero_iff]
  constructor
  · rintro ⟨y, hy, houter, rfl⟩
    rw [Yard.length_outer_of_foldlM hy] at houter
    exact ⟨⟨y, hy⟩, houter, rfl⟩
  · rintro ⟨⟨y, hy⟩, hdepth, rfl⟩
    refine ⟨y, hy, ?_, rfl⟩
    rwa [Yard.length_outer_of_foldlM hy]

/-- The first name is the failure if it comes before every stray parenthesis. -/
theorem ofTokensWith_eq_unresolvedIdentifier_iff {x : Name} :
    ofTokensWith signs ts = .error (.unresolvedIdentifier x) ↔
      ∃ i, IsLeast (namePositions ts) i ∧ ts[i]? = some (.name x) ∧
        ∀ j, IsLeast (strayPositions ts) j → i < j := by
  have hfirst (i : Nat) : (i ∈ namePositions ts ∧ _) ↔ _ :=
    first_iff_isLeast (fun _ hi _ hj => ne_of_mem hi hj) i
  have herror : ofTokensWith signs ts = .error (.unresolvedIdentifier x) ↔
      ∃ i, (∀ j < i, j ∉ namePositions ts ∧ j ∉ strayPositions ts) ∧ ts[i]? = some (.name x) := by
    rw [ofTokensWith_eq_error_iff, foldlM_eq_error_iff_position]
    simp
  rw [herror]
  constructor
  · rintro ⟨i, hbefore, hx⟩
    obtain ⟨hleast, hlt⟩ := (hfirst i).1 ⟨⟨x, hx⟩, hbefore⟩
    exact ⟨i, hleast, hx, hlt⟩
  · rintro ⟨i, hleast, hx, hlt⟩
    exact ⟨i, ((hfirst i).2 ⟨hleast, hlt⟩).2, hx⟩

/-- The first stray parenthesis is the failure if it comes before every name. -/
theorem ofTokensWith_eq_unmatchedRightParen_iff :
    ofTokensWith signs ts = .error .unmatchedRightParen ↔
      ∃ j, IsLeast (strayPositions ts) j ∧ ∀ i, IsLeast (namePositions ts) i → j < i := by
  have herror : ofTokensWith signs ts = .error .unmatchedRightParen ↔
      ∃ j, j ∈ strayPositions ts ∧ ∀ i < j, i ∉ strayPositions ts ∧ i ∉ namePositions ts := by
    rw [ofTokensWith_eq_error_iff, foldlM_eq_error_iff_position]
    simp [and_comm]
  rw [herror]
  exact exists_congr (first_iff_isLeast fun j hj i hi => (ne_of_mem hi hj).symm)

theorem exists_ofTokensWith_iff :
    (∃ p, ofTokensWith signs ts = .ok p) ↔
      namePositions ts = ∅ ∧ strayPositions ts = ∅ ∧ depth ts = 0 := by
  rw [← and_assoc, ← exists_foldlM_iff]
  simp only [ofTokensWith_eq_ok_iff, ← List.length_eq_zero_iff]
  constructor
  · rintro ⟨p, y, hy, houter, -⟩
    rw [Yard.length_outer_of_foldlM hy] at houter
    exact ⟨⟨y, hy⟩, houter⟩
  · rintro ⟨⟨y, hy⟩, hdepth⟩
    refine ⟨_, y, hy, ?_, rfl⟩
    rwa [Yard.length_outer_of_foldlM hy]

/-! ## Balanced parentheses -/

theorem closes_of_foldlM (h : ts.foldlM (Yard.step signs) y = .ok y') (houter : y'.outer = []) :
    Bracket.closes y.outer.length (parens ts) = true := by
  induction ts generalizing y with
  | nil =>
    obtain rfl := Except.ok.inj h
    rw [houter]
    rfl
  | cons k ts ih =>
    rw [List.foldlM_cons, bind_eq_ok_iff] at h
    obtain ⟨y₁, hy, h⟩ := h
    have htail := ih h
    rw [Yard.length_outer_of_step hy] at htail
    obtain ⟨n, rfl, -⟩ | ⟨o, rfl, -⟩ | ⟨rfl, -⟩ | ⟨ops, outer, rfl, hopen, -⟩ := Yard.step_cases hy
    · exact htail
    · exact htail
    · exact htail
    · rw [hopen] at htail ⊢
      exact htail

theorem names_eq_nil (h : namePositions ts = ∅) : names ts = [] := by
  refine List.filterMap_eq_nil_iff.2 fun k hk => Option.eq_none_iff_forall_ne_some.2 fun x hx => ?_
  obtain ⟨i, hi⟩ := List.mem_iff_getElem?.1 hk
  rw [eq_name_of_name? hx] at hi
  exact Set.eq_empty_iff_forall_notMem.1 h i ⟨x, hi⟩

theorem exists_ofTokens_iff_closes (h : namePositions ts = ∅) :
    (∃ p, ofTokensWith signs ts = .ok p) ↔ Bracket.closes 0 (parens ts) = true := by
  constructor
  · rintro ⟨p, hp⟩
    obtain ⟨y, hy, houter, -⟩ := ofTokensWith_eq_ok_iff.1 hp
    exact closes_of_foldlM hy houter
  · exact exists_ofTokensWith (names_eq_nil h)

/-- The parentheses of a text are checked as those of its tokens. -/
theorem balanced_iff_closes {t : Text} (h : scan t = .ok ts) :
    Bracket.balanced t = true ↔ Bracket.closes 0 (parens ts) = true := by
  have hparens : Bracket.parens t = parens ts :=
    parens_of_rendering (fun _ => Text.isBlank_of_isSeparator) (rendering_of_scan h)
  rw [Bracket.balanced, ← Bracket.closes_parens, hparens]

/-- The conversion fails for the first name or the first closing parenthesis without an open one,
whichever comes first, and if there is neither, for a parenthesis that stays open.  Otherwise it
succeeds.  So it accepts the tokens of a text without names exactly if the text is balanced, and
then also when their signs have been enclosed. -/
theorem ofTokens_failures (ts : List Token) :
    (∀ x, ofTokens ts = .error (.unresolvedIdentifier x) ↔
      ∃ i, IsLeast (namePositions ts) i ∧ ts[i]? = some (.name x) ∧
        ∀ j, IsLeast (strayPositions ts) j → i < j) ∧
    (ofTokens ts = .error .unmatchedRightParen ↔
      ∃ j, IsLeast (strayPositions ts) j ∧ ∀ i, IsLeast (namePositions ts) i → j < i) ∧
    (ofTokens ts = .error .unmatchedLeftParen ↔
      namePositions ts = ∅ ∧ strayPositions ts = ∅ ∧ depth ts ≠ 0) ∧
    ((∃ p, ofTokens ts = .ok p) ↔
      namePositions ts = ∅ ∧ strayPositions ts = ∅ ∧ depth ts = 0) ∧
    ∀ t, scan t = .ok ts → namePositions ts = ∅ →
      ((∃ p, ofTokens ts = .ok p) ↔ Bracket.balanced t = true) ∧
      (Bracket.balanced t = true → ∃ p, ofTokens (Sign.enclose ts) = .ok p) := by
  refine ⟨fun x => ofTokensWith_eq_unresolvedIdentifier_iff,
    ofTokensWith_eq_unmatchedRightParen_iff, ?_, exists_ofTokensWith_iff,
    fun t ht hnames => ⟨?_, fun hb => ?_⟩⟩
  · rw [ofTokens, ofTokensWith_eq_error_iff, exists_foldlM_iff, foldlM_eq_error_iff_position]
    simp [and_assoc]
  · rw [balanced_iff_closes ht]
    exact exists_ofTokens_iff_closes hnames
  · refine exists_ofTokensWith ((Sign.names_encloseFrom _ _).trans (names_eq_nil hnames)) ?_
    exact Sign.closes_encloseFrom .start rfl ((balanced_iff_closes ht).1 hb)

end Postfix

end LineCalc
