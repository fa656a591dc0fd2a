import LineCalc.Sign.Basic
import LineCalc.Text.Basic

/-!
# Runs of signs in a text

`collapse` writes a text in a canonical form.  A run of signs, with any blanks between and after
them, becomes its net sign, written directly before the next visible character; other blanks become
single spaces; and the text begins with a sign.

The text is read from left to right.  Between two visible characters that are no signs, the reader
only has to know what it has met since the first of them: nothing, a blank, or a run of signs.
-/

namespace LineCalc.Sign

/-- What has been read since the last visible character that is no sign. -/
inductive Gap where
  /-- Nothing. -/
  | tight
  /-- Blanks, for which a space has been written. -/
  | spaced
  /-- At least one sign, and possibly blanks; the net sign has not been written yet. -/
  | run (net : Sign)
deriving DecidableEq, Repr

namespace Gap

/-- The net sign of the signs in the gap; without signs it is a plus. -/
def net : Gap → Sign
  | run s => s
  | _ => .plus

/-- What is still to be written for the gap before the next visible character. -/
def mark : Gap → Text
  | run s => [s.symbol]
  | _ => []

end Gap

/-- The canonical form of a text that follows a gap. -/
def collapseFrom (g : Gap) : Text → Text
  | [] => g.mark
  | c :: t =>
    match ofSymbol? c with
    | some s => collapseFrom (.run (g.net * s)) t
    | none =>
      if Text.isBlank c then
        if g = .tight then ' ' :: collapseFrom .spaced t else collapseFrom g t
      else g.mark ++ c :: collapseFrom .tight t

/-- The canonical form of a text: each run of signs is one sign, each run of blanks at most one
space, and there is a sign in front. -/
def collapse (t : Text) : Text := collapseFrom (.run .plus) t.trim

theorem collapseFrom_symbol (g : Gap) (s : Sign) (t : Text) :
    collapseFrom g (s.symbol :: t) = collapseFrom (.run (g.net * s)) t := by
  simp [collapseFrom, ofSymbol?_symbol]

theorem collapseFrom_blank {g : Gap} {c : Char} (hs : ofSymbol? c = none)
    (hb : Text.isBlank c = true) (t : Text) :
    collapseFrom g (c :: t) =
      if g = .tight then ' ' :: collapseFrom .spaced t else collapseFrom g t := by
  simp [collapseFrom, hs, hb]

theorem collapseFrom_visible {g : Gap} {c : Char} (hs : ofSymbol? c = none)
    (hb : Text.isBlank c = false) (t : Text) :
    collapseFrom g (c :: t) = g.mark ++ c :: collapseFrom .tight t := by
  simp [collapseFrom, hs, hb]

/-- What a character is to the reader, with one constructor for each equation of `collapseFrom`. -/
inductive Kind : Char → Prop
  | sign (s : Sign) : Kind s.symbol
  | blank {c : Char} (hs : ofSymbol? c = none) (hb : Text.isBlank c = true) : Kind c
  | visible {c : Char} (hs : ofSymbol? c = none) (hb : Text.isBlank c = false) : Kind c

theorem kind (c : Char) : Kind c := by
  cases hs : ofSymbol? c with
  | some s => exact ofSymbol?_eq_some_iff.1 hs ▸ .sign s
  | none =>
    cases hb : Text.isBlank c with
    | true => exact .blank hs hb
    | false => exact .visible hs hb

theorem exists_collapseFrom_run (r : Sign) (t : Text) :
    ∃ (s : Sign) (u : Text), collapseFrom (.run r) t = s.symbol :: u := by
  induction t generalizing r with
  | nil => exact ⟨r, [], rfl⟩
  | cons c t ih =>
    cases kind c with
    | sign s =>
      rw [collapseFrom_symbol]
      exact ih _
    | blank hs hb =>
      rw [collapseFrom_blank hs hb, if_neg (nomatch ·)]
      exact ih r
    | visible hs hb => exact ⟨r, _, collapseFrom_visible hs hb t⟩

/-- The canonical form of a text begins with a sign. -/
theorem exists_collapse (t : Text) : ∃ (s : Sign) (u : Text), collapse t = s.symbol :: u :=
  exists_collapseFrom_run .plus t.trim

end LineCalc.Sign
