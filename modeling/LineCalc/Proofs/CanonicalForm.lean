import LineCalc.Proofs.NetSigns
import LineCalc.Sign.Skeleton
import Mathlib.Data.List.Chain

/-!
# The canonical form of a text

Whether a text is collapsed can be told from its ends and from neighbours in it (`Collapsed`).
Collapsing gives such texts only, and it keeps the skeleton of a text with a plus in front
(`skeleton_collapse`).  A collapsed text can be written from its skeleton (`Collapsed.text_eq`), so
the skeleton is all that collapsing keeps (`collapse_canonical`).
-/

namespace LineCalc

open Token

/-! ## Characters in front of a skeleton -/

theorem Text.isContent_symbol (s : Sign) : isContent s.symbol = false := by
  cases s <;> rfl

theorem Text.isContent_of_isBlank {b : Char} (hb : isBlank b = true) : isContent b = false := by
  simp [isContent, hb]

namespace Seam

/-- A character in a gap hides the blanks after it. -/
theorem cons_cons_of_blank {b : Char} (hb : Sign.ofSymbol? b = none) (c : Char) (m : Seam) :
    (m.cons b).cons c = m.cons c := by
  rw [cons_of_none hb]
  unfold cons
  split <;> rfl

end Seam

namespace Skeleton

variable {b c : Char} {k : Skeleton}

theorem cons_of_content (hc : Text.isContent c = true) (k : Skeleton) :
    k.cons c = ⟨c :: k.content, Seam.ofGap [] :: k.seams⟩ :=
  if_pos hc

theorem cons_of_gap (hc : Text.isContent c = false) (k : Skeleton) :
    k.cons c = ⟨k.content, k.seams.modifyHead (Seam.cons c)⟩ :=
  if_neg (by simp [hc])

theorem cons_mul (r s : Sign) (k : Skeleton) :
    k.cons (r * s).symbol = (k.cons s.symbol).cons r.symbol := by
  simp only [cons_of_gap (Text.isContent_symbol _), List.modifyHead_modifyHead]
  congr 2
  exact funext (Seam.cons_mul r s)

theorem cons_cons_of_blank (hb : Text.isBlank b = true) (hc : Text.isContent c = false)
    (k : Skeleton) : (k.cons b).cons c = k.cons c := by
  rw [cons_of_gap (Text.isContent_of_isBlank hb), cons_of_gap hc, cons_of_gap hc,
    List.modifyHead_modifyHead]
  congr 2
  exact funext (Seam.cons_cons_of_blank (ofSymbol?_eq_none_of_isBlank hb) c)

/-- All blanks count the same. -/
theorem cons_of_isBlank (hb : Text.isBlank b = true) (hc : Text.isBlank c = true) (k : Skeleton) :
    k.cons b = k.cons c := by
  rw [cons_of_gap (Text.isContent_of_isBlank hb), cons_of_gap (Text.isContent_of_isBlank hc)]
  congr 2
  funext m
  rw [Seam.cons_of_none (ofSymbol?_eq_none_of_isBlank hb),
    Seam.cons_of_none (ofSymbol?_eq_none_of_isBlank hc)]

end Skeleton

theorem Text.skeleton_append_congr {t u : Text} (h : skeleton t = skeleton u) (v : Text) :
    skeleton (v ++ t) = skeleton (v ++ u) := by
  induction v with
  | nil => exact h
  | cons c v ih =>
    rw [List.cons_append, List.cons_append, skeleton_cons, skeleton_cons, ih]

namespace Sign

variable {g : Gap} {a c : Char} {t u v : Text}

/-! ## Collapsing keeps the skeleton -/

/-- What has been written for a gap. -/
def Gap.written : Gap → Text
  | .spaced => [' ']
  | _ => []

theorem skeleton_collapseFrom (g : Gap) (t : Text) :
    Text.skeleton (g.written ++ collapseFrom g t) = Text.skeleton (g.written ++ (g.mark ++ t)) := by
  induction t generalizing g with
  | nil => rw [collapseFrom, List.append_nil]
  | cons c t ih =>
    cases kind c with
    | sign s =>
      have hrun (r : Sign) :
          Text.skeleton (collapseFrom (.run r) t) = Text.skeleton (r.symbol :: t) := ih (.run r)
      rw [collapseFrom_symbol]
      refine Text.skeleton_append_congr ((hrun _).trans ?_) _
      cases g with
      | tight => rfl
      | spaced => rfl
      | run r =>
        rw [Gap.mark, List.singleton_append, Text.skeleton_cons, Text.skeleton_cons,
          Text.skeleton_cons]
        exact Skeleton.cons_mul r s _
    | blank hs hb =>
      have hspaced : Text.skeleton (' ' :: collapseFrom .spaced t) = Text.skeleton (' ' :: t) :=
        ih .spaced
      rw [collapseFrom_blank hs hb]
      cases g with
      | tight =>
        rw [if_pos rfl]
        change Text.skeleton (' ' :: collapseFrom .spaced t) = Text.skeleton (c :: t)
        rw [hspaced, Text.skeleton_cons, Text.skeleton_cons, Skeleton.cons_of_isBlank rfl hb]
      | spaced =>
        rw [if_neg (by decide), ih]
        change Text.skeleton (' ' :: t) = Text.skeleton (' ' :: c :: t)
        rw [Text.skeleton_cons, Text.skeleton_cons, Text.skeleton_cons,
          Skeleton.cons_cons_of_blank hb rfl]
      | run r =>
        rw [if_neg (fun h => by cases h), ih]
        change Text.skeleton (r.symbol :: t) = Text.skeleton (r.symbol :: c :: t)
        rw [Text.skeleton_cons, Text.skeleton_cons, Text.skeleton_cons,
          Skeleton.cons_cons_of_blank hb (Text.isContent_symbol r)]
    | visible hs hb =>
      have htight : Text.skeleton (collapseFrom .tight t) = Text.skeleton t := ih .tight
      rw [collapseFrom_visible hs hb]
      have hc := Text.skeleton_append_congr htight [c]
      exact Text.skeleton_append_congr (Text.skeleton_append_congr hc g.mark) g.written

/-- Collapsing keeps the skeleton of the trimmed text with a plus in front. -/
theorem skeleton_collapse (t : Text) :
    Text.skeleton (collapse t) = Text.skeleton (plus.symbol :: t.trim) :=
  skeleton_collapseFrom (.run .plus) t.trim

/-! ## Collapsed texts -/

/-- A text that begins with a sign, in which all blanks are single spaces, none of them after a sign
or at the end, and no two signs are adjacent. -/
structure Collapsed (u : Text) : Prop where
  starts : ∃ s : Sign, u.head? = some s.symbol
  eq_space : ∀ c ∈ u, Text.isBlank c = true → c = ' '
  single : ¬ [' ', ' '] <:+: u
  after_sign : ∀ s : Sign, ¬ [s.symbol, ' '] <:+: u
  ends : u.getLast? ≠ some ' '
  apart : ∀ r s : Sign, ¬ [r.symbol, s.symbol] <:+: u

/-- In a collapsed text a space may stand after content only, and a sign after anything but a
sign. -/
def Fits (a b : Char) : Prop :=
  (b = ' ' → Text.isContent a = true) ∧ ∀ s : Sign, b = s.symbol → ofSymbol? a = none

theorem fits_of_content (hs : ofSymbol? c = none) (hb : Text.isBlank c = false) (a : Char) :
    Fits a c := by
  constructor
  · rintro rfl
    cases hb
  · rintro s rfl
    exact absurd hs (ofSymbol?_symbol_ne_none s)

theorem Fits.isBlank_eq_false (h : Fits a c) (ha : Text.isContent a = false)
    (hc : Text.isBlank c = true → c = ' ') : Text.isBlank c = false := by
  rw [Bool.eq_false_iff]
  intro hb
  rw [h.1 (hc hb)] at ha
  cases ha

/-- After a sign there is content. -/
theorem Fits.isContent {s : Sign} (h : Fits s.symbol c) (hc : Text.isBlank c = true → c = ' ') :
    Text.isContent c = true := by
  have hb := h.isBlank_eq_false (Text.isContent_symbol s) hc
  have hs : ofSymbol? c = none := by
    rw [Option.eq_none_iff_forall_ne_some]
    intro r hr
    exact absurd (h.2 r (ofSymbol?_eq_some_iff.1 hr)) (ofSymbol?_symbol_ne_none s)
  simp [Text.isContent, hs, hb]

theorem Collapsed.isChain (h : Collapsed u) : u.IsChain Fits := by
  refine List.isChain_iff_forall_rel_of_append_cons_cons.2 ?_
  rintro a b x y rfl
  have hab : [a, b] <:+: x ++ a :: b :: y := ⟨x, y, by simp⟩
  constructor
  · rintro rfl
    cases kind a with
    | sign s => exact absurd hab (h.after_sign s)
    | blank hs hb =>
      obtain rfl := h.eq_space a (by simp) hb
      exact absurd hab h.single
    | visible hs hb => simp [Text.isContent, hs, hb]
  · rintro s rfl
    cases hr : ofSymbol? a with
    | some r =>
      obtain rfl := ofSymbol?_eq_some_iff.1 hr
      exact absurd hab (h.apart r s)
    | none => rfl

theorem fits_of_isChain (hchain : u.IsChain Fits) (h : [a, b] <:+: u) : Fits a b :=
  List.isChain_pair.1 <| List.IsChain.infix hchain h

theorem collapsed_of_isChain (hstarts : ∃ s : Sign, u.head? = some s.symbol)
    (hspace : ∀ c ∈ u, Text.isBlank c = true → c = ' ') (hends : u.getLast? ≠ some ' ')
    (hchain : u.IsChain Fits) : Collapsed u where
  starts := hstarts
  eq_space := hspace
  ends := hends
  single h := by
    cases (fits_of_isChain hchain h).1 rfl
  after_sign s h := by
    have hs := (fits_of_isChain hchain h).1 rfl
    rw [Text.isContent_symbol] at hs
    cases hs
  apart r s h := ofSymbol?_symbol_ne_none r ((fits_of_isChain hchain h).2 s rfl)

theorem fits_symbol (ha : ofSymbol? a = none) (s : Sign) : Fits a s.symbol := by
  refine ⟨fun h => ?_, fun _ _ => ha⟩
  cases s <;> cases h

/-- What is written for a text may stand after the character before it. -/
theorem isChain_collapseFrom (ha : ofSymbol? a = none) (hg : g = .tight → Text.isContent a = true)
    (t : Text) : (a :: collapseFrom g t).IsChain Fits := by
  induction t generalizing a g with
  | nil =>
    cases g with
    | tight => exact .singleton a
    | spaced => exact .singleton a
    | run s => exact List.isChain_pair.2 (fits_symbol ha s)
  | cons c t ih =>
    cases kind c with
    | sign s =>
      rw [collapseFrom_symbol]
      exact ih ha nofun
    | blank hs hb =>
      rw [collapseFrom_blank hs hb]
      split
      · next htight =>
        refine .cons_cons ⟨fun _ => hg htight, ?_⟩ (ih rfl nofun)
        intro s hspace
        cases s <;> cases hspace
      · next htight => exact ih ha fun h => absurd h htight
    | visible hs hb =>
      have hc : Text.isContent c = true := by simp [Text.isContent, hs, hb]
      have htail : (c :: collapseFrom .tight t).IsChain Fits := ih hs fun _ => hc
      rw [collapseFrom_visible hs hb]
      cases g with
      | tight => exact .cons_cons (fits_of_content hs hb a) htail
      | spaced => exact .cons_cons (fits_of_content hs hb a) htail
      | run s => exact .cons_cons (fits_symbol ha s) (.cons_cons (fits_of_content hs hb _) htail)

/-- A text that does not end in a blank does not end in one when it is collapsed. -/
theorem exists_collapseFrom_concat (hc : Text.isBlank c = false) (g : Gap) (t : Text) :
    ∃ v d, collapseFrom g (t ++ [c]) = v ++ [d] ∧ Text.isBlank d = false := by
  induction t generalizing g with
  | nil =>
    rw [List.nil_append]
    cases kind c with
    | sign s =>
      rw [collapseFrom_symbol]
      refine ⟨[], (g.net * s).symbol, rfl, ?_⟩
      cases g.net * s <;> rfl
    | blank hs hb =>
      rw [hb] at hc
      cases hc
    | visible hs hb => exact ⟨g.mark, c, collapseFrom_visible hs hb [], hb⟩
  | cons e t ih =>
    rw [List.cons_append]
    cases kind e with
    | sign s =>
      rw [collapseFrom_symbol]
      exact ih _
    | blank hs hb =>
      rw [collapseFrom_blank hs hb]
      split
      · obtain ⟨v, d, hv, hd⟩ := ih .spaced
        exact ⟨' ' :: v, d, congrArg (' ' :: ·) hv, hd⟩
      · exact ih g
    | visible hs hb =>
      obtain ⟨v, d, hv, hd⟩ := ih .tight
      rw [collapseFrom_visible hs hb, hv]
      exact ⟨g.mark ++ e :: v, d, by simp, hd⟩

theorem collapsed_collapse (t : Text) : Collapsed (collapse t) := by
  have hchain : (collapse t).IsChain Fits :=
    (isChain_collapseFrom (a := ' ') (g := .run .plus) rfl nofun t.trim).tail
  refine collapsed_of_isChain ?_ (fun c hc hb => eq_space_of_mem_collapseFrom hb _ _ hc) ?_ hchain
  · obtain ⟨s, u, hu⟩ := exists_collapse t
    exact ⟨s, by rw [hu]; rfl⟩
  · obtain htrim | ⟨v, c, htrim⟩ := List.eq_nil_or_concat t.trim
    · rw [collapse, htrim]
      decide
    · have hc : Text.isBlank c = false :=
        isBlank_of_mem_getLast?_trim (t := t) c (by simp [htrim])
      obtain ⟨w, d, hw, hd⟩ := exists_collapseFrom_concat hc (.run .plus) v
      rw [collapse, htrim, List.concat_eq_append, hw, List.getLast?_concat]
      intro hspace
      cases Option.some.inj hspace
      cases hd

end Sign

/-! ## The text of a skeleton -/

namespace Skeleton

variable {b c : Char} {k : Skeleton} {m : Seam} {ms : List Seam} {u : Text}

theorem text_cons_of_content (hc : Text.isContent c = true) (k : Skeleton) :
    (k.cons c).text = c :: k.text := by
  rw [cons_of_content hc]
  rfl

/-- A character in the first gap is written in front if it is written in front of the gap. -/
theorem text_cons_of_gap (hc : Text.isContent c = false) (hk : k.seams = m :: ms)
    (hm : (m.cons c).text = c :: m.text) : (k.cons c).text = c :: k.text := by
  have hne : k.content.map (fun d => [d]) ++ [[]] ≠ [] := by simp
  obtain ⟨x, xs, hx⟩ := List.exists_cons_of_ne_nil hne
  rw [cons_of_gap hc, text, text, hk, List.modifyHead_cons, List.map_cons, List.map_cons, hx, hm]
  rfl

/-- The first gap of a text that does not begin with a blank has none in front, and the first gap of
a text that begins with content is empty. -/
theorem exists_seams (u : Text) : ∃ m ms, (Text.skeleton u).seams = m :: ms ∧
    ((∀ c ∈ u.head?, Text.isBlank c = false) → m.spaced = false) ∧
    ((∀ c ∈ u.head?, Text.isContent c = true) → m = Seam.ofGap []) := by
  induction u with
  | nil => exact ⟨Seam.ofGap [], [], by simp [Text.skeleton], fun _ => rfl, fun _ => rfl⟩
  | cons d u ih =>
    rw [Text.skeleton_cons]
    cases hd : Text.isContent d with
    | true =>
      rw [cons_of_content hd]
      exact ⟨_, _, rfl, fun _ => rfl, fun _ => rfl⟩
    | false =>
      obtain ⟨m, ms, hm, -, -⟩ := ih
      rw [cons_of_gap hd, hm]
      refine ⟨m.cons d, ms, rfl, fun hb => ?_, fun hc => ?_⟩
      · have hsign : Sign.ofSymbol? d ≠ none := by
          intro hs
          rw [Text.isContent, hs, hb d rfl] at hd
          cases hd
        obtain ⟨s, hs⟩ := Option.ne_none_iff_exists'.1 hsign
        obtain rfl := Sign.ofSymbol?_eq_some_iff.1 hs
        cases s <;> rfl
      · rw [hc d rfl] at hd
        cases hd

/-- A character in a gap is written in front of the first gap of a text in which it fits. -/
theorem exists_text_cons (hc : Text.isContent c = false)
    (hspace : ∀ d ∈ c :: u, Text.isBlank d = true → d = ' ')
    (hfits : ∀ d ∈ u.head?, Sign.Fits c d) :
    ∃ m ms, (Text.skeleton u).seams = m :: ms ∧ (m.cons c).text = c :: m.text := by
  obtain ⟨m, ms, hm, hspaced, hempty⟩ := exists_seams u
  have hspace' : ∀ d ∈ u.head?, Text.isBlank d = true → d = ' ' := fun d hd =>
    hspace d (List.mem_cons_of_mem c (List.mem_of_mem_head? hd))
  refine ⟨m, ms, hm, ?_⟩
  cases hs : Sign.ofSymbol? c with
  | some s =>
    obtain rfl := Sign.ofSymbol?_eq_some_iff.1 hs
    rw [hempty fun d hd => (hfits d hd).isContent (hspace' d hd)]
    cases s <;> rfl
  | none =>
    have hb : Text.isBlank c = true := by simpa [Text.isContent, hs] using hc
    obtain rfl := hspace c List.mem_cons_self hb
    have hm := hspaced fun d hd => (hfits d hd).isBlank_eq_false hc (hspace' d hd)
    simp [Seam.cons_of_none hs, Seam.text, hm]

/-- A text without blanks and signs to spare is written from its skeleton. -/
theorem text_skeleton (hspace : ∀ c ∈ u, Text.isBlank c = true → c = ' ')
    (hchain : u.IsChain Sign.Fits) : (Text.skeleton u).text = u := by
  induction u with
  | nil => simp [Text.skeleton, text, Seam.text, Seam.ofGap]
  | cons c u ih =>
    obtain ⟨hfits, htail⟩ := List.isChain_cons.1 hchain
    have hu := ih (fun d hd => hspace d (List.mem_cons_of_mem c hd)) htail
    rw [Text.skeleton_cons]
    cases hc : Text.isContent c with
    | true => rw [text_cons_of_content hc, hu]
    | false =>
      obtain ⟨m, ms, hm, htext⟩ := exists_text_cons hc hspace hfits
      rw [text_cons_of_gap hc hm htext, hu]

end Skeleton

namespace Sign

variable {t u v : Text}

theorem Collapsed.text_eq (h : Collapsed u) : (Text.skeleton u).text = u :=
  Skeleton.text_skeleton h.eq_space h.isChain

/-- A collapsed text is the only one with its skeleton. -/
theorem Collapsed.ext (hu : Collapsed u) (hv : Collapsed v)
    (h : Text.skeleton u = Text.skeleton v) : u = v := by
  rw [← hu.text_eq, ← hv.text_eq, h]

theorem Collapsed.trim_eq (h : Collapsed u) : u.trim = u := by
  refine trim_eq_self_of_ends (fun c hc => ?_) fun c hc => ?_
  · obtain ⟨s, hs⟩ := h.starts
    obtain rfl : s.symbol = c := Option.some.inj (hs.symm.trans hc)
    cases s <;> rfl
  · rw [Bool.eq_false_iff]
    intro hb
    obtain rfl := h.eq_space c (List.mem_of_mem_getLast? hc) hb
    exact h.ends hc

/-- A plus in front of a sign does not count. -/
theorem Collapsed.skeleton_plus (h : Collapsed u) :
    Text.skeleton (plus.symbol :: u.trim) = Text.skeleton u := by
  rw [h.trim_eq]
  cases u with
  | nil =>
    obtain ⟨s, hs⟩ := h.starts
    cases hs
  | cons c u =>
    obtain ⟨s, hs⟩ := h.starts
    obtain rfl : c = s.symbol := Option.some.inj hs
    rw [Text.skeleton_cons, Text.skeleton_cons, ← Skeleton.cons_mul, plus_mul]

/-- Collapsing puts a text in canonical form.  What it gives is collapsed, the collapsed texts are
those that it leaves as they are, and so doing it once more changes nothing.  It keeps the skeleton
of the trimmed text with a plus in front, and nothing else of the text. -/
theorem collapse_canonical :
    (∀ t, Collapsed (collapse t)) ∧ (∀ u, collapse u = u ↔ Collapsed u) ∧
    (∀ t, collapse (collapse t) = collapse t) ∧
    (∀ t, Text.skeleton (collapse t) = Text.skeleton (plus.symbol :: t.trim)) ∧
    ∀ t u, collapse t = collapse u ↔
      Text.skeleton (plus.symbol :: t.trim) = Text.skeleton (plus.symbol :: u.trim) := by
  have hfixed (u : Text) : collapse u = u ↔ Collapsed u := by
    refine ⟨fun h => h ▸ collapsed_collapse u, fun h => (collapsed_collapse u).ext h ?_⟩
    rw [skeleton_collapse, h.skeleton_plus]
  refine ⟨collapsed_collapse, hfixed, fun t => (hfixed _).2 (collapsed_collapse t),
    skeleton_collapse, fun t u => ⟨fun h => ?_, fun h => ?_⟩⟩
  · rw [← skeleton_collapse, ← skeleton_collapse, h]
  · refine (collapsed_collapse t).ext (collapsed_collapse u) ?_
    rw [skeleton_collapse, skeleton_collapse, h]

end Sign

end LineCalc
