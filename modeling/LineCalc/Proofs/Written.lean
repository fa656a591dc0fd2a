import LineCalc.Proofs.Names

/-!
# Written tokens

`Token.write` writes tokens one after another, with a space only between two tokens that would be
read as one.  The tokens that a text can spell at all (`isWritable`) are read back from what is
written (`rendering_write`).  So reading is the inverse of writing, and of any other way to spell
the tokens (`scan_eq_ok_iff`).
-/

namespace LineCalc.Token

/-- The token on its own: a numeral, a name or a symbol. -/
def text : Token → Text
  | int n => Numeral.ofInt n
  | name x => x
  | op o => [o.symbol]
  | lparen => ['(']
  | rparen => [')']

/-- The tokens one after another, with a space between two that cling together. -/
def write : List Token → Text
  | [] => []
  | k :: ks =>
    if ks.head?.any (clings k) then k.text ++ ' ' :: write ks else k.text ++ write ks

/-- An integer that is not negative, a name of letters, or a symbol. -/
def isWritable : Token → Bool
  | int n => 0 ≤ n
  | name x => x.isName
  | _ => true

variable {k : Token} {ks : List Token} {t u : Text}

theorem spells_text (h : k.isWritable = true) : Spells k k.text := by
  cases k with
  | int n =>
    obtain ⟨m, rfl⟩ := Int.eq_ofNat_of_zero_le (of_decide_eq_true h)
    exact spells_ofNat m
  | name x => exact .name h
  | op o => exact .op o
  | lparen => exact .lparen
  | rparen => exact .rparen

theorem Spells.isWritable (h : Spells k u) : k.isWritable = true := by
  cases h with
  | int h => simp [Token.isWritable]
  | name h => exact h
  | op o => rfl
  | lparen => rfl
  | rparen => rfl

theorem rendering_write (h : ∀ k ∈ ks, k.isWritable = true) :
    Rendering Text.isSeparator ks (write ks) := by
  induction ks with
  | nil => exact .nil rfl
  | cons k ks ih =>
    have hk := spells_text (h k List.mem_cons_self)
    have htail := ih fun l hl => h l (List.mem_cons_of_mem k hl)
    rw [write]
    split
    · have hspace := htail.cons_gap (c := ' ') (fun _ => Text.isBlank_of_isSeparator) rfl
      exact .cons (w := []) rfl hk (fun _ _ _ => ⟨' ', rfl, rfl⟩) hspace
    · next hclings =>
      refine .cons (w := []) rfl hk (fun l hl hkl => ?_) htail
      rw [Option.mem_def.1 hl, Option.any_some, hkl] at hclings
      exact absurd rfl hclings

/-- Only writable tokens have renderings. -/
theorem Rendering.isWritable {gap : Char → Bool} (h : Rendering gap ks t) :
    ∀ k ∈ ks, k.isWritable = true := by
  induction h with
  | nil => simp
  | cons _ hu _ _ ih =>
    intro l hl
    obtain rfl | hl := List.mem_cons.1 hl
    · exact hu.isWritable
    · exact ih l hl

/-- A text is read as some tokens exactly if it is a rendering of them with separators.  Integers
that are not negative, names of letters and symbols can be written in this way and are read back,
and no other tokens. -/
theorem scan_eq_ok_iff :
    (∀ t ks, scan t = .ok ks ↔ Rendering Text.isSeparator ks t) ∧
    ∀ ks, scan (write ks) = .ok ks ↔ ∀ k ∈ ks, k.isWritable = true := by
  have hscan (t : Text) (ks : List Token) : scan t = .ok ks ↔ Rendering Text.isSeparator ks t :=
    ⟨rendering_of_scan, scan_of_rendering⟩
  refine ⟨hscan, fun ks => ⟨fun h => ?_, fun h => ?_⟩⟩
  · exact ((hscan _ _).1 h).isWritable
  · exact (hscan _ _).2 (rendering_write h)

example : write [.name ['a', 'b'], .int 12, .int 3, .lparen] = "ab12 3(".toList := by decide

end LineCalc.Token
