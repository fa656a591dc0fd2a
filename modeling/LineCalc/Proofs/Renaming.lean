import LineCalc.Proofs.RenamedLine

/-!
# Names carry no meaning

A session that reads its lines with other names goes the same way.  Its store has the bindings of
the original one with the names renamed (`Store.Renames`); the tokens of a text are the renamed ones
(`rendering_rename`), so the text has the same value or the renamed fault (`value_rename`); and a
line has the renamed outcome and leaves the two stores related (`execute_rename`).  So have all
lines of a history (`outcomes_renameLine`).
-/

namespace LineCalc

open Token

variable {r : Name → Name}

namespace Token

/-! ## Tokens -/

variable {gap : Char → Bool} {ks : List Token} {t : Text}

theorem isName_of_mem_names (h : Rendering gap ks t) : ∀ x ∈ names ks, x.isName = true := by
  induction h with
  | nil => exact fun x hx => by cases hx
  | cons hw hu apart ht ih =>
    intro x hx
    rw [names_cons] at hx
    obtain hx | hx := List.mem_append.1 hx
    · obtain rfl := eq_name_of_name? (Option.mem_toList.1 hx)
      cases hu with
      | name hu => exact hu
    · exact ih x hx

theorem rename_of_ne {k : Token} (h : k.name? = none) : k.rename r = k := by
  cases k <;> first | rfl | cases h

theorem clings_rename (k l : Token) : clings (k.rename r) (l.rename r) = clings k l := by
  cases k <;> cases l <;> rfl

theorem sign?_rename (k : Token) : (k.rename r).sign? = k.sign? := by
  cases k <;> rfl

theorem absorb_rename (s : Sign) (ks : List Token) :
    absorb s (ks.map (rename r)) = (absorb s ks).map (rename r) := by
  cases ks with
  | nil => rfl
  | cons k ks =>
    cases hk : k.sign? with
    | none =>
      rw [List.map_cons, absorb_cons s hk, absorb_cons s ((sign?_rename k).trans hk)]
      rfl
    | some q =>
      obtain rfl := sign?_eq_some_iff.1 hk
      rw [absorb_sign]
      exact absorb_sign s q _

theorem mergeSigns_rename (ks : List Token) :
    mergeSigns (ks.map (rename r)) = (mergeSigns ks).map (rename r) := by
  induction ks with
  | nil => rfl
  | cons k ks ih =>
    cases hk : k.sign? with
    | none => rw [List.map_cons, mergeSigns_cons hk, mergeSigns_cons ((sign?_rename k).trans hk), ih,
        List.map_cons]
    | some s =>
      obtain rfl := sign?_eq_some_iff.1 hk
      rw [mergeSigns_sign, ← absorb_rename, ← ih]
      exact mergeSigns_sign s _

/-- A renamed text spells the renamed tokens. -/
theorem rendering_rename (hr : ∀ x, x.isName = true → (r x).isName = true)
    (h : Rendering Text.isBlank ks t) :
    Rendering Text.isBlank (ks.map (rename r)) (Text.mapNames r t) := by
  induction h with
  | @nil w hw =>
    rw [Text.mapNames_of_not_isAlpha fun c hc =>
      isAlpha_eq_false_of_isBlank (List.all_eq_true.1 hw c hc)]
    exact .nil hw
  | @cons w u t k ks hw hu apart ht ih =>
    have hb : ∀ c ∈ w, c.isAlpha = false := fun c hc =>
      isAlpha_eq_false_of_isBlank (List.all_eq_true.1 hw c hc)
    obtain ⟨u', hu', hmap⟩ : ∃ u', Spells (k.rename r) u' ∧
        Text.mapNames r (u ++ t) = u' ++ Text.mapNames r t := by
      cases hk : k.name? with
      | none => exact ⟨u, (rename_of_ne hk).symm ▸ hu, Text.mapNames_append (hu.not_isAlpha hk) t⟩
      | some x =>
        obtain rfl := eq_name_of_name? hk
        cases hu with
        | name hx => exact ⟨r u, .name (hr u hx),
            Text.mapNames_name hx (ht.lengthens_head (fun _ h => h) apart)⟩
    rw [List.append_assoc, Text.mapNames_append hb, hmap, ← List.append_assoc]
    refine .cons hw hu' (fun l hl hkl => ?_) ih
    rw [List.head?_map] at hl
    obtain ⟨m, hm, rfl⟩ := Option.map_eq_some_iff.1 hl
    obtain ⟨c, hc, hcb⟩ := apart m hm ((clings_rename k m).symm.trans hkl)
    exact ⟨c, (Text.head?_rename_eq_some_iff hr (isAlpha_eq_false_of_isBlank hcb) t).2 hc, hcb⟩

end Token

namespace Store

/-! ## Stores -/

/-- The second store has the bindings of the first one with the names renamed, and the first one
binds names only. -/
structure Renames (r : Name → Name) (s s' : Store) : Prop where
  isName : ∀ x ∈ s.names, x.isName = true
  entries : s'.entries = s.entries.map fun e => (r e.1, e.2)

variable {s s' : Store} {x : Name}

theorem renames_empty : Renames r empty empty := ⟨fun x hx => (by cases hx), rfl⟩

theorem Renames.names (h : Renames r s s') : s'.names = s.names.map r := by
  rw [Store.names, h.entries, List.map_map, Store.names, List.map_map]
  rfl

theorem mapNames_renderEntry {e : Name × Int} (he : e.1.isName = true) (t : Text) :
    Text.mapNames r (renderEntry e ++ t) = renderEntry (r e.1, e.2) ++ Text.mapNames r t := by
  have hvalue : ∀ c ∈ '=' :: Numeral.ofInt e.2, c.isAlpha = false := by
    intro c hc
    obtain rfl | hc := List.mem_cons.1 hc
    · rfl
    · obtain rfl | hd := Expression.mem_ofInt hc
      · rfl
      · exact isAlpha_eq_false_of_isDigit hd
  rw [renderEntry, List.append_assoc, Text.mapNames_name he fun c hc => by
      obtain rfl := Option.some.inj hc
      rfl,
    Text.mapNames_append hvalue, renderEntry, List.append_assoc]

theorem mapNames_intercalate {es : List (Name × Int)} (h : ∀ e ∈ es, e.1.isName = true)
    (t : Text) :
    Text.mapNames r ([',', ' '].intercalate (es.map renderEntry) ++ t) =
      [',', ' '].intercalate (es.map fun e => renderEntry (r e.1, e.2)) ++ Text.mapNames r t := by
  induction es with
  | nil => rfl
  | cons e es ih =>
    rw [List.forall_mem_cons] at h
    cases es with
    | nil =>
      rw [List.map_singleton, List.map_singleton, List.intercalate_singleton,
        List.intercalate_singleton]
      exact mapNames_renderEntry h.1 t
    | cons d es =>
      have hcomma : ∀ c ∈ [',', ' '], c.isAlpha = false :=
        List.forall_mem_cons.2 ⟨rfl, List.forall_mem_singleton.2 rfl⟩
      have htail := ih h.2
      rw [List.map_cons, List.map_cons] at htail
      simp only [List.map_cons, List.intercalate_cons_cons, List.append_assoc]
      rw [mapNames_renderEntry h.1, Text.mapNames_append hcomma, htail]

/-- The list of the variables is the renamed one. -/
theorem Renames.render (h : Renames r s s') : s'.render = Text.mapNames r s.render := by
  have hentries : ∀ e ∈ s.entries, e.1.isName = true := fun e he =>
    h.isName e.1 (List.mem_map_of_mem he)
  rw [Store.render, Store.render, List.cons_append, List.cons_append, Text.mapNames_cons rfl,
    mapNames_intercalate hentries, h.entries, List.map_map]
  rfl

variable (hinj : ∀ x y, x.isName = true → y.isName = true → r x = r y → x = y)
include hinj

theorem Renames.slot? (h : Renames r s s') (hx : x.isName = true) :
    s'.slot? (r x) = s.slot? x := by
  refine Option.ext fun i => ?_
  rw [slot?_eq_some_iff, slot?_eq_some_iff, h.names, List.getElem?_map, Option.map_eq_some_iff]
  constructor
  · rintro ⟨y, hy, hyx⟩
    rw [hy, hinj y x (h.isName y (List.mem_of_getElem? hy)) hx hyx]
  · exact fun hi => ⟨x, hi, rfl⟩

theorem Renames.get? (h : Renames r s s') (hx : x.isName = true) : s'.get? (r x) = s.get? x := by
  rw [Store.get?, Store.get?, h.slot? hinj hx, h.entries]
  simp only [List.getElem?_map, Option.map_map, Function.comp_def]

theorem Renames.resolve (h : Renames r s s') (hx : x.isName = true) :
    s'.resolve (r x) = (s.resolve x).mapError (UnknownVariable.rename r) := by
  rw [Store.resolve, Store.resolve, h.get? hinj hx]
  cases s.get? x <;> rfl

theorem Renames.substitute (h : Renames r s s') {ks : List Token}
    (hks : ∀ x ∈ Token.names ks, x.isName = true) :
    s'.substitute (ks.map (Token.rename r)) =
      (s.substitute ks).mapError (UnknownVariable.rename r) := by
  induction ks with
  | nil => rfl
  | cons k ks ih =>
    cases hk : k.name? with
    | none =>
      rw [names_cons_of_ne hk] at hks
      rw [List.map_cons, rename_of_ne hk, substitute_cons_of_ne hk, substitute_cons_of_ne hk,
        ih hks]
      cases s.substitute ks <;> rfl
    | some x =>
      obtain rfl := eq_name_of_name? hk
      rw [names_cons_name, List.forall_mem_cons] at hks
      rw [List.map_cons, Token.rename, Store.substitute, Store.substitute, ih hks.2,
        h.resolve hinj hks.1]
      cases s.resolve x with
      | error e => rfl
      | ok v => cases s.substitute ks <;> rfl

theorem Renames.assign (h : Renames r s s') (hx : x.isName = true) (v : Int) :
    Renames r (s.assign x v) (s'.assign (r x) v) := by
  refine ⟨forall_mem_names_assign h.isName hx v, ?_⟩
  have hslot := h.slot? hinj hx
  cases hs : s.slot? x with
  | some i =>
    rw [entries_assign_of_slot? (hslot.trans hs), entries_assign_of_slot? hs, h.entries]
    refine List.ext_getElem? fun j => ?_
    simp only [List.getElem?_modify, List.getElem?_map]
    split <;> simp [Function.comp_def]
  | none =>
    rw [entries_assign_of_not_mem (slot?_eq_none_iff.1 (hslot.trans hs)),
      entries_assign_of_not_mem (slot?_eq_none_iff.1 hs), h.entries, List.map_append]
    rfl

end Store

variable (hr : ∀ x, x.isName = true → (r x).isName = true)
  (hinj : ∀ x y, x.isName = true → y.isName = true → r x = r y → x = y)
  {s s' : Store}

namespace Expression

/-! ## Expressions -/

theorem mapError_tokensValue (ts : List Token) :
    (tokensValue ts).mapError (Fault.rename r) = tokensValue ts := by
  unfold tokensValue
  cases Postfix.ofTokens (Sign.enclose ts) with
  | error e => rfl
  | ok p =>
    change Except.mapError _ (p.value.mapError Fault.eval) = p.value.mapError Fault.eval
    cases p.value <;> rfl

include hr hinj in
/-- A renamed text has the same value, or the renamed fault. -/
theorem value_rename (h : s.Renames r s') (t : Text) :
    value s' (Text.mapNames r t) = (value s t).mapError (Fault.rename r) := by
  have hparens : Bracket.parens (Text.mapNames r t) = Bracket.parens t :=
    Text.filter_rename hr (fun c hc => by
      rw [Bool.or_eq_false_iff, decide_eq_false_iff_not, decide_eq_false_iff_not]
      constructor <;> rintro rfl <;> cases hc) t
  have hfind : (Text.mapNames r t).find? (fun d => !Text.isBlank d && !isPart d) =
      t.find? (fun d => !Text.isBlank d && !isPart d) := by
    rw [← List.head?_filter, Text.filter_rename hr, List.head?_filter]
    intro c hc
    simp [isPart_of_isAlpha hc]
  by_cases hb : Bracket.Dyck (Bracket.parens t)
  · have hb' : Bracket.Dyck (Bracket.parens (Text.mapNames r t)) := hparens.symm ▸ hb
    cases hf : t.find? (fun d => !Text.isBlank d && !isPart d) with
    | some c =>
      rw [value_of_unexpected hb hf, value_of_unexpected hb' (hfind.trans hf)]
      rfl
    | none =>
      obtain ⟨ks, hks⟩ := exists_rendering_of_find? hf
      have hnames : ∀ x ∈ names (mergeSigns (.op .add :: ks)), x.isName = true := by
        rw [names_mergeSigns, names_cons_of_ne rfl]
        exact isName_of_mem_names hks
      have hmerge : mergeSigns (.op .add :: ks.map (Token.rename r)) =
          (mergeSigns (.op .add :: ks)).map (Token.rename r) :=
        mergeSigns_rename (.op .add :: ks)
      rw [value_of_rendering hb' (rendering_rename hr hks), value_of_rendering hb hks, hmerge,
        h.substitute hinj hnames]
      cases s.substitute (mergeSigns (.op .add :: ks)) with
      | error e => rfl
      | ok us => exact (mapError_tokensValue us).symm
  · have hb' : ¬ Bracket.Dyck (Bracket.parens (Text.mapNames r t)) := hparens.symm ▸ hb
    rw [value_of_not_dyck hb, value_of_not_dyck hb']
    rfl

end Expression

namespace Session

/-! ## Lines and histories -/

theorem renameOutcome_print {st : Statement} (h : st ≠ .command .listing) (t : Text) :
    renameOutcome r st (.ok (.print t)) = .ok (.print t) := by
  rw [renameOutcome, if_neg h]

theorem renameOutcome_listing (t : Text) :
    renameOutcome r (.command .listing) (.ok (.print t)) = .ok (.print (t.mapNames r)) := by
  rw [renameOutcome, if_pos rfl]

include hinj

theorem sourceValue_rename (h : s.Renames r s') {source : Source}
    (hnames : ∀ x ∈ source.names, x.isName = true) :
    sourceValue s' (source.rename r) = (sourceValue s source).mapError (UnknownVariable.rename r) := by
  cases source with
  | literal v => rfl
  | copy sign x =>
    rw [Source.rename, sourceValue, sourceValue, h.resolve hinj (hnames x List.mem_cons_self)]
    cases s.resolve x <;> rfl

include hr

/-- A statement with other names has the renamed outcome on the store with the other names. -/
theorem run_rename (h : s.Renames r s') {st : Statement}
    (hnames : ∀ x ∈ st.names, x.isName = true) :
    (run s' (st.rename r)).1 = renameOutcome r st (run s st).1 ∧
      (run s st).2.Renames r (run s' (st.rename r)).2 := by
  cases st with
  | empty => exact ⟨rfl, h⟩
  | badAssignment => exact ⟨rfl, h⟩
  | query x =>
    rw [Statement.rename, run, run, h.get? hinj (hnames x List.mem_cons_self)]
    cases s.get? x with
    | none => exact ⟨rfl, h⟩
    | some v => exact ⟨rfl, h⟩
  | assign x source =>
    rw [Statement.names, List.forall_mem_cons] at hnames
    rw [Statement.rename, run, run, sourceValue_rename hinj h hnames.2]
    cases sourceValue s source with
    | error e => exact ⟨rfl, h⟩
    | ok v => exact ⟨rfl, h.assign hinj hnames.1 v⟩
  | command c =>
    refine ⟨?_, h⟩
    cases c with
    | listing =>
      change Except.ok (Outcome.print s'.render) = _
      rw [h.render]
      exact (renameOutcome_listing s.render).symm
    | exit => rfl
    | help => exact (renameOutcome_print (by decide) helpText).symm
    | unknown line => rfl
  | expression t =>
    rw [Statement.rename, run, run, Expression.value_rename hr hinj h]
    cases Expression.value s t with
    | error e => exact ⟨rfl, h⟩
    | ok v => exact ⟨rfl, h⟩

theorem execute_rename (h : s.Renames r s') (l : Text) :
    (execute s' (renameLine r l)).1 =
        renameOutcome r (Statement.classify l) (execute s l).1 ∧
      (execute s l).2.Renames r (execute s' (renameLine r l)).2 := by
  rw [execute, execute, Statement.classify_renameLine hr]
  exact run_rename hr hinj h (Statement.isName_of_mem_names_classify l)

theorem history_rename (h : s.Renames r s') (ls : List Text) :
    outcomes s' (ls.map (renameLine r)) =
        List.zipWith (fun l => renameOutcome r (Statement.classify l)) ls (outcomes s ls) ∧
      (after s ls).Renames r (after s' (ls.map (renameLine r))) := by
  induction ls generalizing s s' with
  | nil => exact ⟨rfl, h⟩
  | cons l ls ih =>
    obtain ⟨ho, hs⟩ := execute_rename hr hinj h l
    obtain ⟨hos, hafter⟩ := ih hs
    rw [List.map_cons, outcomes, outcomes, List.zipWith_cons_cons, ho, hos]
    exact ⟨rfl, hafter⟩

/-- Names carry no meaning.  Lines with other names have, one after another, the outcomes of the
original lines with the names renamed, and after each line the store has the bindings of the
original one, in the same order, with the names renamed. -/
theorem outcomes_renameLine (ls : List Text) :
    outcomes .empty (ls.map (renameLine r)) =
        List.zipWith (fun l => renameOutcome r (Statement.classify l)) ls (outcomes .empty ls) ∧
      ∀ n, (after .empty ((ls.map (renameLine r)).take n)).entries =
        (after .empty (ls.take n)).entries.map fun e => (r e.1, e.2) := by
  refine ⟨(history_rename hr hinj Store.renames_empty ls).1, fun n => ?_⟩
  rw [← List.map_take]
  exact (history_rename hr hinj Store.renames_empty (ls.take n)).2.entries

omit hr hinj in
/-- With a letter in front of each name `/variables` is still the command, and lists the renamed
variables. -/
theorem outcomes_renameLine_prefix :
    ["a = 5".toList, "b=-a".toList, "z".toList, "b = ab".toList, "/variables".toList].map
        (renameLine ('q' :: ·)) =
      ["qa = 5".toList, "qb=-qa".toList, "qz".toList, "qb = qab".toList, "/variables".toList] ∧
    outcomes .empty (["a = 5".toList, "b=-a".toList, "z".toList, "b = ab".toList,
        "/variables".toList].map (renameLine ('q' :: ·))) =
      [.ok .silent, .ok .silent, .error (.unboundQuery "qz".toList),
        .error (.expression (.unknownVariable ⟨"qab".toList⟩)),
        .ok (.print "\x7bqa=5, qb=-5\x7d".toList)] ∧
    (after .empty (["a = 5".toList, "b=-a".toList, "z".toList, "b = ab".toList,
        "/variables".toList].map (renameLine ('q' :: ·)))).entries =
      [("qa".toList, 5), ("qb".toList, -5)] := by
  have hr (x : Name) (hx : x.isName = true) : Text.isName ('q' :: x) = true :=
    Text.isName_iff.2 ⟨List.cons_ne_nil _ _,
      List.forall_mem_cons.2 ⟨rfl, (Text.isName_iff.1 hx).2⟩⟩
  obtain ⟨houtcomes, hafter⟩ := outcomes_renameLine hr
    (fun x y _ _ hxy => (List.cons.inj hxy).2)
    ["a = 5".toList, "b=-a".toList, "z".toList, "b = ab".toList, "/variables".toList]
  exact ⟨by decide, houtcomes.trans (by decide), (hafter 5).trans (by decide)⟩

end Session

end LineCalc
