import LineCalc.Proofs.Shapes
import LineCalc.Session.History
import LineCalc.Transcript

/-!
# Inputs in parts

A session runs an input line by line, and stops at the first line that ends it (`Transcript.ends`).
What follows a whole line is therefore run like an input of its own, on the store that the lines
before it have left, unless the session has stopped (`ofInput_append`).  A carriage return before
each line feed makes no difference: it belongs to the line end, or to the blanks at the end of the
line (`ofInput_withReturns`).
-/

namespace LineCalc

namespace Input

variable {bs x y : Bytes} {t : Text}

/-! ## Texts as bytes -/

theorem text?_eq_some_iff : text? bs = some t ↔ bs = t.flatMap String.utf8EncodeChar := by
  have hbytes : (⟨bs.toArray⟩ : ByteArray) = bs.toByteArray :=
    ByteArray.ext List.data_toByteArray.symm
  have hencode : bs = t.flatMap String.utf8EncodeChar ↔ bs.toByteArray = t.utf8Encode :=
    List.toByteArray_inj.symm
  rw [text?, hbytes, hencode, Option.map_eq_some_iff]
  constructor
  · rintro ⟨u, hu, rfl⟩
    simp only [String.fromUTF8?, Option.dite_none_right_eq_some, Option.some.injEq] at hu
    obtain ⟨hvalid, rfl⟩ := hu
    exact (String.utf8Encode_toList (b := String.fromUTF8 _ hvalid)).symm
  · intro h
    have hvalid : bs.toByteArray.IsValidUTF8 := .intro t h
    refine ⟨String.ofList t, ?_, String.toList_ofList⟩
    rw [String.fromUTF8?, dif_pos hvalid, Option.some.injEq, ← String.toByteArray_inj]
    exact h

/-- An ASCII code is a byte of the character with this code only. -/
theorem toNat_of_mem_utf8EncodeChar {c : Char} {b : UInt8} (hb : b.toNat < 128)
    (h : b ∈ String.utf8EncodeChar c) : c.toNat = b.toNat := by
  have hlarge {n : Nat} (hn : 128 ≤ n ∧ n < 256) : b ≠ UInt8.ofNat n := by
    rintro rfl
    rw [UInt8.toNat_ofNat'] at hb
    omega
  simp only [String.utf8EncodeChar] at h
  split at h
  · rw [List.mem_singleton.1 h, UInt8.toNat_ofNat']
    change c.val.toNat = _
    omega
  · have hone {n : Nat} {bs : List UInt8} (hn : 128 ≤ n ∧ n < 256)
        (h : b ∈ UInt8.ofNat n :: bs) : b ∈ bs :=
      (List.mem_cons.1 h).resolve_left (hlarge hn)
    split at h
    · cases hone (by omega) (hone (by omega) h)
    · split at h
      · cases hone (by omega) (hone (by omega) (hone (by omega) h))
      · cases hone (by omega) (hone (by omega) (hone (by omega) (hone (by omega) h)))

theorem text?_append_return (bs : Bytes) : text? (bs ++ [13]) = (text? bs).map (· ++ ['\r']) := by
  have hreturn : String.utf8EncodeChar '\r' = [13] := by decide
  cases ht : text? bs with
  | some t =>
    rw [Option.map_some, text?_eq_some_iff, List.flatMap_append, ← text?_eq_some_iff.1 ht,
      List.flatMap_singleton, hreturn]
  | none =>
    rw [Option.map_none, Option.eq_none_iff_forall_ne_some]
    intro u hu
    have hbytes := text?_eq_some_iff.1 hu
    rcases List.eq_nil_or_concat u with rfl | ⟨v, c, hv⟩
    · simp at hbytes
    rcases List.eq_nil_or_concat (String.utf8EncodeChar c) with hc | ⟨w, d, hw⟩
    · exact String.utf8EncodeChar_ne_nil hc
    rw [List.concat_eq_append] at hv hw
    rw [hv, List.flatMap_append, List.flatMap_singleton, hw, ← List.append_assoc] at hbytes
    obtain ⟨hbs, hd⟩ := List.append_inj' hbytes rfl
    obtain rfl : 13 = d := List.singleton_inj.1 hd
    -- The last byte is all of the last character.
    have hmem : (13 : UInt8) ∈ String.utf8EncodeChar c := by simp [hw]
    obtain rfl : c = '\r' := Char.toNat_inj.1 (toNat_of_mem_utf8EncodeChar (by decide) hmem)
    obtain rfl : w = [] := by simpa [hreturn] using hw
    rw [List.append_nil, ← text?_eq_some_iff, ht] at hbs
    cases hbs

/-! ## Line ends -/

/-- The input with a carriage return before each line feed. -/
def withReturns (bs : Bytes) : Bytes := bs.flatMap fun b => if b = 10 then [13, 10] else [b]

/-- A line, or the same line with a carriage return at its end. -/
def SameLine (l m : Bytes) : Prop := m = l ∨ m = l ++ [13]

theorem sameLine_dropReturn (read : Bytes) : SameLine (dropReturn read).reverse read.reverse := by
  unfold dropReturn
  split
  · exact Or.inr List.reverse_cons
  · exact Or.inl rfl

theorem forall₂_linesFrom (read bs : Bytes) :
    List.Forall₂ SameLine (linesFrom read bs) (linesFrom read (withReturns bs)) := by
  induction bs generalizing read with
  | nil => exact List.forall₂_same.2 fun l _ => Or.inl rfl
  | cons b bs ih =>
    by_cases hb : b = 10
    · subst hb
      exact .cons (sameLine_dropReturn read) (ih [])
    · have hcons : withReturns (b :: bs) = b :: withReturns bs := by simp [withReturns, hb]
      rw [hcons, linesFrom, linesFrom, if_neg hb, if_neg hb]
      exact ih (b :: read)

/-- What follows whole lines does not change them. -/
theorem lines_append (hx : x = [] ∨ x.getLast? = some 10) (y : Bytes) :
    lines (x ++ y) = lines x ++ lines y := by
  obtain rfl | hx := hx
  · rfl
  · obtain ⟨z, rfl⟩ := List.getLast?_eq_some_iff.1 hx
    rw [List.append_assoc]
    exact lines_append_newline z y

end Input

/-! ## Blanks around a line -/

theorem Text.trim_append {w : Text} (hw : ∀ c ∈ w, isBlank c = true) (t : Text) :
    trim (t ++ w) = trim t := by
  have hdrop : w.dropWhile isBlank = [] := List.dropWhile_eq_nil_iff.2 hw
  rw [trim, trim, trimStart, trimStart, List.dropWhile_append]
  split
  · next ht => rw [hdrop, List.isEmpty_iff.1 ht]
  · rw [Sign.trimEnd_append, if_pos (List.all_eq_true.2 hw)]

theorem Text.trim_trim (t : Text) : trim (trim t) = trim t := by
  refine Sign.trim_eq_self_of_ends (fun c hc => ?_) Sign.isBlank_of_mem_getLast?_trim
  obtain ⟨u, hu⟩ : trimEnd (trimStart t) <+: trimStart t := by
    rw [← List.reverse_suffix, trimEnd, List.reverse_reverse]
    exact List.dropWhile_suffix isBlank
  have hend : (trimEnd (trimStart t)).head? = some c := hc
  have hhead : (trimStart t).head? = some c := by
    rw [← hu, List.head?_append, hend, Option.some_or]
  exact Token.not_of_mem_head?_dropWhile c hhead

namespace Session

variable {s : Store} {t : Text}

/-- The answer to a line does not depend on the blanks around it. -/
theorem respond_trim (s : Store) (t : Text) : respond s t.trim = respond s t := by
  rw [respond, respond, execute, execute, Statement.classify, Statement.classify, Text.trim_trim]

theorem respond_append_return (s : Store) (t : Text) : respond s (t ++ ['\r']) = respond s t := by
  have hblank : ∀ c ∈ ['\r'], Text.isBlank c = true := fun c hc => by
    rw [List.mem_singleton.1 hc]
    rfl
  rw [← respond_trim, Text.trim_append hblank, respond_trim]

/-! ## The end of a session -/

theorem respond_snd (s : Store) (t : Text) : (respond s t).2 = (execute s t).2 := by
  unfold respond
  split <;> next h => rw [h]

theorem respond_of_exit (h : t.trim = "/exit".toList) (s : Store) :
    respond s t = (.exit farewell, s) := by
  have hexit : Statement.ofTrimmed "/exit".toList = .command .exit := by decide
  rw [respond, execute, Statement.classify, h, hexit]
  rfl

/-- Only `/exit` ends a session. -/
theorem respond_of_ne_exit (h : t.trim ≠ "/exit".toList) (s : Store) :
    (respond s t).1 = .silent ∨ ∃ u, (respond s t).1 = .print u := by
  have hcommand : Statement.classify t ≠ .command .exit := fun hc =>
    h (Statement.shape_command_iff.1 (Statement.ofTrimmed_eq_iff.1 hc)).2.2
  unfold respond execute
  cases hc : Statement.classify t with
  | empty => exact Or.inl rfl
  | query x => cases hx : s.get? x <;> simp [run, hx]
  | assign x source => cases hv : sourceValue s source <;> simp [run, hv]
  | badAssignment => exact Or.inr ⟨_, rfl⟩
  | expression u => cases hu : Expression.value s u <;> simp [run, hu]
  | command c =>
    cases c with
    | exit => exact absurd hc hcommand
    | help => exact Or.inr ⟨_, rfl⟩
    | listing => exact Or.inr ⟨_, rfl⟩
    | unknown u => exact Or.inr ⟨_, rfl⟩

end Session

namespace Transcript

open Input

/-- Whether a session ends at a line: the line is no text, or it is `/exit` with blanks around it. -/
def ends (l : Bytes) : Bool := (text? l).all fun t => t.trim = "/exit".toList

variable {s s' : Store} {l : Bytes} {ls ms : List Bytes} {t : Text} {tr : Transcript}

/-! ## One line -/

theorem ends_iff :
    ends l = true ↔ text? l = none ∨ ∃ t, text? l = some t ∧ t.trim = "/exit".toList := by
  unfold ends
  cases text? l with
  | none => exact iff_of_true rfl (Or.inl rfl)
  | some t =>
    simp only [Option.all_some, decide_eq_true_iff, reduceCtorEq, false_or, Option.some.injEq,
      exists_eq_left']

theorem ends_eq_false_iff :
    ends l = false ↔ ∃ t, text? l = some t ∧ t.trim ≠ "/exit".toList := by
  unfold ends
  cases text? l with
  | none => exact iff_of_false nofun nofun
  | some t =>
    simp only [Option.all_some, decide_eq_false_iff_not, Option.some.injEq, exists_eq_left', ne_eq]

theorem ofLines_of_malformed (hl : text? l = none) (s : Store) (ls : List Bytes) :
    ofLines s (l :: ls) = ⟨[], .malformedLine⟩ := by
  rw [ofLines, hl]

theorem ofLines_of_exit (ht : text? l = some t) (hexit : t.trim = "/exit".toList) (s : Store)
    (ls : List Bytes) : ofLines s (l :: ls) = print Session.farewell ⟨[], .exit⟩ := by
  simp only [ofLines, ht, Session.respond_of_exit hexit s]

theorem ending_ofLines_cons (ht : text? l = some t) (hne : t.trim ≠ "/exit".toList) (s : Store)
    (ls : List Bytes) :
    (ofLines s (l :: ls)).ending = (ofLines (Session.execute s t).2 ls).ending := by
  have hs := Session.respond_snd s t
  have ho := Session.respond_of_ne_exit hne s
  rcases hr : Session.respond s t with ⟨o, s'⟩
  rw [hr] at hs ho
  simp only [ofLines, ht, hr, ← hs]
  obtain rfl | ⟨u, rfl⟩ := ho <;> rfl

/-! ## Lines that do not end the session, and the first that does -/

theorem ending_ofLines (h : ∀ l ∈ ls, ends l = false) (s : Store) :
    ∃ ts, ls.map text? = ts.map some ∧ (ofLines s ls).ending = .inputEnd (Session.after s ts) := by
  induction ls generalizing s with
  | nil => exact ⟨[], rfl, rfl⟩
  | cons l ls ih =>
    obtain ⟨t, ht, hne⟩ := ends_eq_false_iff.1 (h l List.mem_cons_self)
    obtain ⟨ts, hts, hending⟩ :=
      ih (fun m hm => h m (List.mem_cons_of_mem l hm)) (Session.execute s t).2
    refine ⟨t :: ts, by rw [List.map_cons, List.map_cons, ht, hts], ?_⟩
    rw [ending_ofLines_cons ht hne, hending, Session.after_cons]

theorem exists_first_of_ends (h : ∃ l ∈ ls, ends l = true) :
    ∃ as l bs, ls = as ++ l :: bs ∧ ends l = true ∧ ∀ m ∈ as, ends m = false := by
  obtain ⟨m, hm, hends⟩ := h
  obtain ⟨l, hfind⟩ := Option.isSome_iff_exists.1 (List.find?_isSome.2 ⟨m, hm, hends⟩)
  obtain ⟨hl, as, bs, rfl, has⟩ := List.find?_eq_some_iff_append.1 hfind
  exact ⟨as, l, bs, rfl, hl, fun m hm => by simpa using has m hm⟩

theorem andThen_of_inputEnd {next : Store → Transcript} (h : tr.ending = .inputEnd s) :
    tr.andThen next = { next s with output := tr.output ++ (next s).output } := by
  rw [andThen, h]

theorem andThen_of_ne {next : Store → Transcript} (h : ∀ s, tr.ending ≠ .inputEnd s) :
    tr.andThen next = tr := by
  unfold andThen
  split
  · next s hs => exact absurd hs (h s)
  · rfl

/-- What follows lines that do not end the session is run on the store that they have left. -/
theorem ofLines_append_of_not_ends (h : ∀ l ∈ ls, ends l = false) (s : Store) :
    ∃ ts, ls.map text? = ts.map some ∧ (ofLines s ls).ending = .inputEnd (Session.after s ts) ∧
      ∀ ms, ofLines s (ls ++ ms) =
        { ofLines (Session.after s ts) ms with
          output := (ofLines s ls).output ++ (ofLines (Session.after s ts) ms).output } := by
  obtain ⟨ts, hts, hending⟩ := ending_ofLines h s
  refine ⟨ts, hts, hending, fun ms => ?_⟩
  rw [ofLines_append, andThen_of_inputEnd hending]

/-- A session that ends at a line does not reach the end of the input. -/
theorem ending_ne_inputEnd (h : ∃ l ∈ ls, ends l = true) (s s' : Store) :
    (ofLines s ls).ending ≠ .inputEnd s' := by
  obtain ⟨as, l, bs, rfl, hl, has⟩ := exists_first_of_ends h
  obtain ⟨ts, -, -, happend⟩ := ofLines_append_of_not_ends has s
  rw [happend]
  obtain hl | ⟨t, ht, hexit⟩ := ends_iff.1 hl
  · rw [ofLines_of_malformed hl]
    exact nofun
  · rw [ofLines_of_exit ht hexit]
    exact nofun

theorem ofLines_append_of_ends (h : ∃ l ∈ ls, ends l = true) (s : Store) (ms : List Bytes) :
    ofLines s (ls ++ ms) = ofLines s ls := by
  rw [ofLines_append, andThen_of_ne (ending_ne_inputEnd h s)]

/-! ## Lines that are no text -/

/-- The lines before a line that is no text keep their output. -/
theorem ofLines_append_malformed {as bs : List Bytes} (has : ∀ m ∈ as, ends m = false)
    (hl : text? l = none) (s : Store) :
    ofLines s (as ++ l :: bs) = ⟨(ofLines s as).output, .malformedLine⟩ := by
  obtain ⟨ts, -, -, happend⟩ := ofLines_append_of_not_ends has s
  rw [happend, ofLines_of_malformed hl, List.append_nil]

theorem exitCode_ofLines_eq_one_iff :
    (ofLines s ls).exitCode = 1 ↔
      ∃ as l bs, ls = as ++ l :: bs ∧ text? l = none ∧ ∀ m ∈ as, ends m = false := by
  constructor
  · intro h
    by_cases hends : ∃ l ∈ ls, ends l = true
    · obtain ⟨as, l, bs, rfl, hl, has⟩ := exists_first_of_ends hends
      obtain hl | ⟨t, ht, hexit⟩ := ends_iff.1 hl
      · exact ⟨as, l, bs, rfl, hl, has⟩
      · obtain ⟨ts, -, -, happend⟩ := ofLines_append_of_not_ends has s
        rw [happend, ofLines_of_exit ht hexit] at h
        cases h
    · have hnone : ∀ l ∈ ls, ends l = false := by simpa using hends
      obtain ⟨ts, -, hending⟩ := ending_ofLines hnone s
      rw [exitCode, hending] at h
      cases h
  · rintro ⟨as, l, bs, rfl, hl, has⟩
    rw [ofLines_append_malformed has hl]
    rfl

/-! ## Carriage returns -/

theorem ofLines_cons_of_sameLine {m : Bytes} (h : SameLine l m)
    (hls : ∀ s, ofLines s ls = ofLines s ms) (s : Store) :
    ofLines s (l :: ls) = ofLines s (m :: ms) := by
  obtain rfl | rfl := h
  · simp only [ofLines, hls]
  · cases ht : text? l with
    | none =>
      have hm : text? (l ++ [13]) = none := by rw [text?_append_return, ht, Option.map_none]
      rw [ofLines_of_malformed ht, ofLines_of_malformed hm]
    | some t =>
      have hm : text? (l ++ [13]) = some (t ++ ['\r']) := by
        rw [text?_append_return, ht, Option.map_some]
      simp only [ofLines, ht, hm, Session.respond_append_return, hls]

theorem ofLines_of_sameLine (h : List.Forall₂ SameLine ls ms) (s : Store) :
    ofLines s ls = ofLines s ms := by
  induction h generalizing s with
  | nil => rfl
  | cons hl _ ih => exact ofLines_cons_of_sameLine hl ih s

theorem ofInput_withReturns (s : Store) (z : Bytes) : ofInput s (withReturns z) = ofInput s z :=
  (ofLines_of_sameLine (forall₂_linesFrom [] z) s).symm

/-! ## Inputs -/

/-- A session on an input of whole lines and anything after it.  If a line of the first part ends
the session, the rest makes no difference.  Otherwise the first part by itself ends without an
error, and the rest is run on the store that it has left: the output of the rest follows on its
output, and the errors and the exit code are those of the rest.  On any input the exit code is 1
exactly if a line that is no text is reached, and the output of the lines before it is kept; a
carriage return before each line feed changes nothing. -/
theorem ofInput_append {x : Bytes} (hx : x = [] ∨ x.getLast? = some 10) (s : Store) (y z : Bytes) :
    ((∃ l ∈ lines x, ends l = true) →
      (ofInput s (x ++ y)).output = (ofInput s x).output ∧
      (ofInput s (x ++ y)).errorOutput = (ofInput s x).errorOutput ∧
      (ofInput s (x ++ y)).exitCode = (ofInput s x).exitCode) ∧
    ((∀ l ∈ lines x, ends l = false) → ∃ ts, (lines x).map text? = ts.map some ∧
      (ofInput s x).ending = .inputEnd (Session.after s ts) ∧
      (ofInput s x).exitCode = 0 ∧ (ofInput s x).errorOutput = [] ∧
      (ofInput s (x ++ y)).output =
        (ofInput s x).output ++ (ofInput (Session.after s ts) y).output ∧
      (ofInput s (x ++ y)).errorOutput = (ofInput (Session.after s ts) y).errorOutput ∧
      (ofInput s (x ++ y)).exitCode = (ofInput (Session.after s ts) y).exitCode) ∧
    ((ofInput s z).exitCode = 1 ↔
      ∃ as l bs, lines z = as ++ l :: bs ∧ text? l = none ∧ ∀ m ∈ as, ends m = false) ∧
    (∀ as l bs, lines z = as ++ l :: bs → text? l = none → (∀ m ∈ as, ends m = false) →
      (ofInput s z).output = (ofLines s as).output) ∧
    (ofInput s (withReturns z)).output = (ofInput s z).output ∧
    (ofInput s (withReturns z)).errorOutput = (ofInput s z).errorOutput ∧
    (ofInput s (withReturns z)).exitCode = (ofInput s z).exitCode := by
  have happend : ofInput s (x ++ y) = ofLines s (lines x ++ lines y) := by
    rw [ofInput, lines_append hx]
  refine ⟨fun h => ?_, fun h => ?_, exitCode_ofLines_eq_one_iff, fun as l bs hz hl has => ?_, ?_⟩
  · rw [happend, ofLines_append_of_ends h]
    exact ⟨rfl, rfl, rfl⟩
  · obtain ⟨ts, hts, hending, hrest⟩ := ofLines_append_of_not_ends h s
    refine ⟨ts, hts, hending, ?_, ?_, ?_⟩
    · rw [exitCode, ofInput, hending]
    · rw [errorOutput, ofInput, hending]
    · rw [happend, hrest]
      exact ⟨rfl, rfl, rfl⟩
  · rw [ofInput, hz, ofLines_append_malformed has hl]
  · rw [ofInput_withReturns]
    exact ⟨rfl, rfl, rfl⟩

/-- What follows `a=2` is run with that binding, up to a byte that is no text; what follows `/exit` is
not run. -/
theorem ofInput_append_two_lines :
    (ofInput .empty ([97, 61, 50, 10] ++ [97, 10, 255])).output = "2\n".toList ∧
    (ofInput .empty ([97, 61, 50, 10] ++ [97, 10, 255])).exitCode = 1 ∧
    (ofInput .empty ([47, 101, 120, 105, 116, 10] ++ [97, 10, 255])).output = "Bye!\n".toList ∧
    (ofInput .empty (withReturns [97, 61, 50, 10, 97, 10])).output = "2\n".toList := by
  obtain ⟨-, hrest, -, -, hreturns, -⟩ := ofInput_append (x := [97, 61, 50, 10]) (Or.inr rfl)
    .empty [97, 10, 255] [97, 61, 50, 10, 97, 10]
  obtain ⟨ts, hts, -, -, -, houtput, -, hexitCode⟩ := hrest (by decide)
  obtain ⟨hends, -⟩ := ofInput_append (x := [47, 101, 120, 105, 116, 10]) (Or.inr rfl)
    .empty [97, 10, 255] []
  have htext : (lines [97, 61, 50, 10]).map text? = ["a=2".toList].map some := by decide
  obtain rfl : ts = ["a=2".toList] :=
    (List.map_inj_right fun _ _ => Option.some.inj).1 (hts.symm.trans htext)
  exact ⟨houtput.trans (by decide), hexitCode.trans (by decide),
    (hends (by decide)).1.trans (by decide), hreturns.trans (by decide)⟩

end Transcript

end LineCalc
