import LineCalc.Sign.Basic
import LineCalc.Text.Basic

/-!
# Skeletons

The skeleton of a text is its content, that is, its characters other than signs and blanks, and
what counts in the gaps before, between and after them.  Of a gap it counts whether there is a sign
in it, whether the number of its minus signs is odd, and whether it has a blank in front.

`Skeleton.text` writes a text with at most one space and one sign in each gap.
-/

namespace LineCalc

/-- Neither a sign nor a blank. -/
def Text.isContent (c : Char) : Bool := (Sign.ofSymbol? c).isNone && !isBlank c

/-- What counts in a gap, which is a text of signs and blanks. -/
structure Seam where
  /-- There is a sign. -/
  signed : Bool
  /-- The number of minus signs is odd. -/
  odd : Bool
  /-- There is a blank before the first sign, or any blank if there is no sign. -/
  spaced : Bool
deriving DecidableEq, Repr

namespace Seam

/-- What counts in the gap `g`. -/
def ofGap (g : Text) : Seam where
  signed := g.any fun c => (Sign.ofSymbol? c).isSome
  odd := decide (g.count Sign.minus.symbol % 2 = 1)
  spaced := (g.takeWhile fun c => (Sign.ofSymbol? c).isNone).any Text.isBlank

/-- The seam of a gap with a character put in front of it. -/
def cons (c : Char) (m : Seam) : Seam :=
  match Sign.ofSymbol? c with
  | some .plus => ⟨true, m.odd, false⟩
  | some .minus => ⟨true, !m.odd, false⟩
  | none => { m with spaced := true }

/-- A space and a sign, as far as the seam has them. -/
def text (m : Seam) : Text :=
  (if m.spaced then [' '] else []) ++
    if m.signed then [(if m.odd then Sign.minus else Sign.plus).symbol] else []

theorem cons_plus (m : Seam) : m.cons Sign.plus.symbol = ⟨true, m.odd, false⟩ := rfl

theorem cons_minus (m : Seam) : m.cons Sign.minus.symbol = ⟨true, !m.odd, false⟩ := rfl

theorem cons_of_none {c : Char} (hc : Sign.ofSymbol? c = none) (m : Seam) :
    m.cons c = { m with spaced := true } := by
  simp [cons, hc]

/-- Two signs in front of a gap count as their product. -/
theorem cons_mul (r s : Sign) (m : Seam) :
    m.cons (r * s).symbol = (m.cons s.symbol).cons r.symbol := by
  cases r <;> cases s
  · rfl
  · rfl
  · rfl
  · change m.cons Sign.plus.symbol = _
    rw [cons_plus, cons_minus, cons_minus, Bool.not_not]

theorem ofGap_plus (g : Text) :
    ofGap (Sign.plus.symbol :: g) = ⟨true, (ofGap g).odd, false⟩ := by
  rw [ofGap, List.count_cons_of_ne (by decide)]
  rfl

theorem ofGap_minus (g : Text) :
    ofGap (Sign.minus.symbol :: g) = ⟨true, !(ofGap g).odd, false⟩ := by
  have hodd : decide ((g.count Sign.minus.symbol + 1) % 2 = 1) =
      !decide (g.count Sign.minus.symbol % 2 = 1) := by
    rw [← decide_not, decide_eq_decide]
    omega
  rw [ofGap, List.count_cons_self, hodd]
  rfl

theorem ofGap_blank {c : Char} (hs : Sign.ofSymbol? c = none) (hb : Text.isBlank c = true)
    (g : Text) : ofGap (c :: g) = { ofGap g with spaced := true } := by
  have hne : c ≠ Sign.minus.symbol := by
    rintro rfl
    cases hs
  rw [ofGap, List.count_cons_of_ne hne]
  simp [hs, hb, ofGap]

theorem ofGap_cons {c : Char} (hc : Text.isContent c = false) (g : Text) :
    ofGap (c :: g) = (ofGap g).cons c := by
  cases hs : Sign.ofSymbol? c with
  | some s =>
    obtain rfl := Sign.ofSymbol?_eq_some_iff.1 hs
    cases s with
    | plus => exact ofGap_plus g
    | minus => exact ofGap_minus g
  | none =>
    have hb : Text.isBlank c = true := by simpa [Text.isContent, hs] using hc
    rw [cons_of_none hs, ofGap_blank hs hb]

end Seam

/-- The content of a text and what counts in its gaps. -/
structure Skeleton where
  content : Text
  /-- One seam more than there are characters of content. -/
  seams : List Seam
deriving DecidableEq, Repr

namespace Skeleton

/-- The skeleton with a character put in front of it: content, or a part of the first gap. -/
def cons (c : Char) (k : Skeleton) : Skeleton :=
  if Text.isContent c then ⟨c :: k.content, Seam.ofGap [] :: k.seams⟩
  else ⟨k.content, k.seams.modifyHead (Seam.cons c)⟩

/-- The content with the text of its seam in each gap. -/
def text (k : Skeleton) : Text :=
  (List.zipWith (· ++ ·) (k.seams.map Seam.text) (k.content.map ([·]) ++ [[]])).flatten

end Skeleton

/-- The skeleton of a text. -/
def Text.skeleton (t : Text) : Skeleton where
  content := t.filter isContent
  seams := (t.splitOnP isContent).map Seam.ofGap

namespace Text

theorem skeleton_cons (c : Char) (t : Text) : skeleton (c :: t) = (skeleton t).cons c := by
  rw [skeleton, List.splitOnP_cons_eq_if_modifyHead, Skeleton.cons]
  cases hc : isContent c with
  | true => simp [hc, skeleton]
  | false =>
    obtain ⟨g, gs, hg⟩ := List.exists_cons_of_ne_nil (List.splitOnP_ne_nil isContent t)
    simp [hc, skeleton, hg, Seam.ofGap_cons hc]

end Text

end LineCalc
