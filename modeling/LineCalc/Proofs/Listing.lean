import LineCalc.Proofs.Assignment
import LineCalc.Proofs.Frame

/-!
# The list of variables

The list of all bindings, without its braces, consists of assignments: split at the commas between
them and executed on the empty store, they give back the store (`replay_listing`).  This needs that
a session binds names only (`isName_of_mem_names_after`), so that a binding is listed as a line that
is an assignment (`classify_renderEntry`) and without commas of its own.
-/

namespace LineCalc

open Token

/-! ## Splitting a text -/

namespace Text

/-- The pieces of a text between the commas that a space follows. -/
def items : Text → List Text
  | [] => [[]]
  | ',' :: ' ' :: t => [] :: items t
  | c :: t => (items t).modifyHead (c :: ·)

theorem items_cons {c : Char} (h : c ≠ ',') (t : Text) :
    items (c :: t) = (items t).modifyHead (c :: ·) := by
  rw [items]
  rintro t rfl
  exact absurd rfl h

theorem items_append {u : Text} (h : ',' ∉ u) (t : Text) :
    items (u ++ t) = (items t).modifyHead (u ++ ·) := by
  induction u with
  | nil => cases h : items t <;> simp [h]
  | cons c u ih =>
    rw [List.mem_cons, not_or] at h
    rw [List.cons_append, items_cons (Ne.symm h.1), ih h.2, List.modifyHead_modifyHead]
    rfl

/-- Splitting gives back the pieces that were joined. -/
theorem items_intercalate {us : List Text} (hne : us ≠ []) (h : ∀ u ∈ us, ',' ∉ u) :
    items ([',', ' '].intercalate us) = us := by
  induction us with
  | nil => exact absurd rfl hne
  | cons u us ih =>
    have hu : ',' ∉ u := h u List.mem_cons_self
    cases us with
    | nil =>
      have := items_append hu []
      simpa [List.intercalate_singleton, items] using this
    | cons v us =>
      have hcomma (t : Text) : items ([',', ' '] ++ t) = [] :: items t := by
        rw [List.cons_append, List.singleton_append, items]
      rw [List.intercalate_cons_cons, List.append_assoc, items_append hu, hcomma,
        ih (List.cons_ne_nil v us) fun w hw => h w (List.mem_cons_of_mem u hw)]
      simp

end Text

namespace Store

/-! ## A store as a list of assignments -/

theorem entries_foldl_assign {s : Store} {es : List (Name × Int)}
    (h : ((s.entries ++ es).map Prod.fst).Nodup) :
    (es.foldl (fun s e => s.assign e.1 e.2) s).entries = s.entries ++ es := by
  induction es generalizing s with
  | nil => simp
  | cons e es ih =>
    obtain ⟨x, v⟩ := e
    have hx : x ∉ s.names := by
      rw [List.map_append, List.nodup_append] at h
      exact fun hx => h.2.2 x hx x (by simp) rfl
    have hentries := entries_assign_of_not_mem hx v
    rw [List.foldl_cons, ih (by simpa [hentries] using h), hentries]
    simp

/-- The bindings of a store, assigned in order, give back the store. -/
theorem ofList_entries (s : Store) : ofList s.entries = s := by
  apply Store.ext
  exact entries_foldl_assign (s := empty) s.nodup_names

end Store

namespace Session

variable {s : Store} {l : Text} {ls : List Text} {x : Name}

/-! ## The names of a session -/

theorem isName_of_mem_names_execute (h : ∀ y ∈ s.names, y.isName = true) (l : Text) :
    ∀ y ∈ (execute s l).2.names, y.isName = true := by
  obtain ⟨x, source, v, hl, -, -, hx⟩ | ⟨-, hs⟩ := execute_cases s l
  · obtain ⟨r, ⟨hname, -⟩, -⟩ := Statement.classify_eq_assign_iff.1 hl
    rw [hx]
    exact Store.forall_mem_names_assign h hname v
  · rwa [hs]

/-- All names that a session binds are names in the sense of `Text.isName`. -/
theorem isName_of_mem_names_after (h : ∀ y ∈ s.names, y.isName = true) (ls : List Text) :
    ∀ y ∈ (after s ls).names, y.isName = true := by
  induction ls generalizing s with
  | nil => exact h
  | cons l ls ih => exact ih (isName_of_mem_names_execute h l)

/-! ## A binding as a line -/

theorem denotes_ofInt (v : Int) : Source.Denotes (Numeral.ofInt v) (.literal v) := by
  have h (signs : List Sign) (hs : signs.length ≤ 1) (n : Nat) :=
    Source.Denotes.literal hs (Numeral.isNumeral_ofNat n)
  simp only [Numeral.value_ofNat] at h
  cases v with
  | ofNat n => exact h [] (by simp) n
  | negSucc n => exact h [.minus] (by simp) (n + 1)

theorem isPart_of_mem_ofInt {c : Char} {v : Int} (h : c ∈ Numeral.ofInt v) : isPart c = true :=
  (denotes_ofInt v).isPart c h

theorem classify_renderEntry (hx : x.isName = true) (v : Int) :
    Statement.classify (Store.renderEntry (x, v)) = .assign x (.literal v) := by
  have hblank : ∀ c ∈ Store.renderEntry (x, v), Text.isBlank c = false := by
    intro c hc
    obtain hc | hc := List.mem_append.1 hc
    · exact Text.isBlank_of_isName hx c hc
    · obtain rfl | hc := List.mem_cons.1 hc
      · rfl
      · exact isBlank_eq_false_of_isPart (isPart_of_mem_ofInt hc)
  rw [Statement.classify_eq_assign_iff, Text.trim_eq_self hblank]
  exact ⟨Numeral.ofInt v, ⟨hx, [], [], by simp, by simp, rfl⟩, denotes_ofInt v⟩

theorem comma_not_mem_renderEntry (hx : x.isName = true) (v : Int) :
    ',' ∉ Store.renderEntry (x, v) := by
  intro h
  have hpart : isPart ',' = true ∨ ',' = '=' := by
    obtain h | h := List.mem_append.1 h
    · exact Or.inl (isPart_of_isAlpha ((Text.isName_iff.1 hx).2 _ h))
    · obtain h | h := List.mem_cons.1 h
      · exact Or.inr h
      · exact Or.inl (isPart_of_mem_ofInt h)
  revert hpart
  decide

theorem execute_renderEntry {e : Name × Int} (he : e.1.isName = true) (s : Store) :
    execute s (Store.renderEntry e) = (.ok .silent, s.assign e.1 e.2) := by
  rw [execute, classify_renderEntry he e.2]
  rfl

theorem history_renderEntry {es : List (Name × Int)} (h : ∀ e ∈ es, e.1.isName = true) (s : Store) :
    outcomes s (es.map Store.renderEntry) = es.map (fun _ => .ok .silent) ∧
      after s (es.map Store.renderEntry) = es.foldl (fun s e => s.assign e.1 e.2) s := by
  induction es generalizing s with
  | nil => exact ⟨rfl, rfl⟩
  | cons e es ih =>
    have he := execute_renderEntry (h e List.mem_cons_self) s
    obtain ⟨ho, ha⟩ := ih (fun d hd => h d (List.mem_cons_of_mem e hd)) (s.assign e.1 e.2)
    rw [List.map_cons, outcomes, after_cons, he]
    exact ⟨congrArg _ ho, ha⟩

/-! ## The list -/

/-- What stands between the braces is a list of lines that give back the store. -/
theorem history_items (h : ∀ y ∈ s.names, y.isName = true) :
    ∃ u, s.render = '\x7b' :: u ++ ['\x7d'] ∧
      outcomes .empty (Text.items u) = (Text.items u).map (fun _ => .ok .silent) ∧
      after .empty (Text.items u) = s := by
  have hentries : ∀ e ∈ s.entries, e.1.isName = true := fun e he =>
    h e.1 (List.mem_map_of_mem he)
  refine ⟨_, rfl, ?_⟩
  by_cases hs : s.entries = []
  · -- The list of the empty store is one empty line.
    have hempty : s = .empty := Store.ext hs
    rw [hs, hempty]
    exact ⟨rfl, by decide⟩
  · rw [Text.items_intercalate (by simpa using hs)]
    · obtain ⟨ho, ha⟩ := history_renderEntry hentries .empty
      rw [List.map_map]
      exact ⟨ho, ha.trans s.ofList_entries⟩
    · intro u hu
      obtain ⟨e, he, rfl⟩ := List.mem_map.1 hu
      exact comma_not_mem_renderEntry (hentries e he) e.2

/-- The list of the variables after any lines can be replayed: each of its items is a line that is
carried out in silence, and on the empty store these lines give the same store, with the same names,
values and order. -/
theorem replay_listing (ls : List Text) :
    ∃ u, (execute (after .empty ls) "/variables".toList).1 =
        .ok (.print ('\x7b' :: u ++ ['\x7d'])) ∧
      outcomes .empty (Text.items u) = (Text.items u).map (fun _ => .ok .silent) ∧
      after .empty (Text.items u) = after .empty ls := by
  have hnames := isName_of_mem_names_after (s := .empty) (fun y hy => by cases hy) ls
  obtain ⟨u, hu, hreplay⟩ := history_items hnames
  have hlisting : Statement.classify "/variables".toList = .command .listing := by decide
  refine ⟨u, ?_, hreplay⟩
  rw [execute, hlisting, ← hu]
  rfl

end Session

end LineCalc
