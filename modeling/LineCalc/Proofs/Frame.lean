import LineCalc.Session.History

/-!
# What a line leaves unchanged

A line is a successful assignment or leaves the store as it is (`execute_cases`).  So all other
lines of a history may be taken out without a change to the outcomes of the remaining lines, or to
the store after them (`outcomes_remaining`).  An assignment itself changes the value of its target
and nothing else: the other names keep their values and their places, and all names stay bound.
-/

namespace LineCalc

namespace Store

/-- What an assignment to `x` keeps: the values and places of the other names, and the order of all
names that were bound before. -/
structure AgreesBut (x : Name) (s t : Store) : Prop where
  get?_eq : ∀ y, y ≠ x → t.get? y = s.get? y
  slot?_eq : ∀ y, y ≠ x → t.slot? y = s.slot? y
  order : s.names <+: t.names

theorem agreesBut_assign (s : Store) (x : Name) (v : Int) : s.AgreesBut x (s.assign x v) where
  get?_eq _ hyx := get?_assign_of_ne s v hyx
  slot?_eq _ hyx := slot?_assign_of_ne s v hyx
  order := names_prefix_assign s x v

end Store

namespace Session

variable {s : Store} {l : Text} {ls : List Text} {x : Name}

/-! ## One line -/

/-- A line is an assignment that is carried out, or leaves the store as it is. -/
theorem execute_cases (s : Store) (l : Text) :
    (∃ x source v, Statement.classify l = .assign x source ∧ sourceValue s source = .ok v ∧
      target? s l = some x ∧ execute s l = (.ok .silent, s.assign x v)) ∨
    target? s l = none ∧ (execute s l).2 = s := by
  unfold target? execute
  cases hl : Statement.classify l with
  | assign x source =>
    cases hv : sourceValue s source with
    | ok v => exact Or.inl ⟨x, source, v, rfl, hv, by simp [run, hv], by simp [run, hv]⟩
    | error e => exact Or.inr ⟨by simp [run, hv], by simp [run, hv]⟩
  | empty => exact Or.inr ⟨rfl, rfl⟩
  | badAssignment => exact Or.inr ⟨rfl, rfl⟩
  | command c => exact Or.inr ⟨rfl, rfl⟩
  | query x =>
    refine Or.inr ⟨rfl, ?_⟩
    cases hx : s.get? x <;> simp [run, hx]
  | expression t =>
    refine Or.inr ⟨rfl, ?_⟩
    cases ht : Expression.value s t <;> simp [run, ht]

theorem execute_of_target? (h : target? s l = some x) :
    ∃ v, execute s l = (.ok .silent, s.assign x v) := by
  obtain ⟨y, _, v, -, -, hy, hv⟩ | ⟨hn, -⟩ := execute_cases s l
  · obtain rfl := Option.some.inj (hy.symm.trans h)
    exact ⟨v, hv⟩
  · rw [hn] at h
    cases h

/-- A line that is no successful assignment leaves the store as it is. -/
theorem execute_snd_of_target? (h : target? s l = none) : (execute s l).2 = s := by
  obtain ⟨y, _, v, -, -, hy, -⟩ | ⟨-, hs⟩ := execute_cases s l
  · rw [hy] at h
    cases h
  · exact hs

theorem agreesBut_execute (h : target? s l = some x) : s.AgreesBut x (execute s l).2 := by
  obtain ⟨v, hv⟩ := execute_of_target? h
  rw [hv]
  exact Store.agreesBut_assign s x v

theorem get?_execute_of_ne (h : target? s l ≠ some x) : (execute s l).2.get? x = s.get? x := by
  cases hl : target? s l with
  | none => rw [execute_snd_of_target? hl]
  | some y =>
    refine (agreesBut_execute hl).get?_eq x fun hxy => h ?_
    rw [hl, hxy]

theorem names_prefix_execute (s : Store) (l : Text) : s.names <+: (execute s l).2.names := by
  cases hl : target? s l with
  | none => exact ⟨[], by rw [List.append_nil, execute_snd_of_target? hl]⟩
  | some x => exact (agreesBut_execute hl).order

/-- A copy of a bound variable is carried out. -/
theorem execute_copy {sign : Sign} {y : Name} {v : Int}
    (hl : Statement.classify l = .assign x (.copy sign y)) (hv : s.get? y = some v) :
    execute s l = (.ok .silent, s.assign x (sign.apply v)) := by
  have hsource : sourceValue s (.copy sign y) = .ok (sign.apply v) := by
    simp only [sourceValue, Store.resolve, hv]
    rfl
  simp [execute, hl, run, hsource]

/-! ## Histories -/

theorem names_prefix_after (s : Store) (ls : List Text) : s.names <+: (after s ls).names := by
  induction ls generalizing s with
  | nil => exact List.prefix_refl _
  | cons l ls ih => exact (names_prefix_execute s l).trans (ih _)

/-- A name that no line assigns a value to keeps the value that it has. -/
theorem get?_after_of_not_mem (h : some x ∉ targets s ls) : (after s ls).get? x = s.get? x := by
  induction ls generalizing s with
  | nil => rfl
  | cons l ls ih =>
    rw [targets, List.mem_cons, not_or] at h
    rw [after_cons, ih h.2, get?_execute_of_ne (Ne.symm h.1)]

/-- The step of `history_remaining`: a line that may be taken out leaves the store as it is, so that
the other lines find the same store with it and without it. -/
theorem remaining_step {keep : Nat → Bool}
    (h : ∀ i x, (targets s (l :: ls))[i]? = some (some x) → keep i = true) :
    (keep 0 = true ∨ (execute s l).2 = s) ∧
      ∀ i x, (targets (execute s l).2 ls)[i]? = some (some x) → keep (i + 1) = true := by
  refine ⟨?_, fun i x hi => h (i + 1) x hi⟩
  cases hl : target? s l with
  | none => exact Or.inr (execute_snd_of_target? hl)
  | some x => exact Or.inl (h 0 x (congrArg some hl))

theorem history_remaining (keep : Nat → Bool)
    (h : ∀ i x, (targets s ls)[i]? = some (some x) → keep i = true) :
    outcomes s (remaining keep ls) = remaining keep (outcomes s ls) ∧
      after s (remaining keep ls) = after s ls := by
  induction ls generalizing s keep with
  | nil => exact ⟨rfl, rfl⟩
  | cons l ls ih =>
    obtain ⟨hl, hls⟩ := remaining_step h
    obtain ⟨ho, ha⟩ := ih _ hls
    simp only [remaining, outcomes, after_cons]
    split
    · rw [outcomes, after_cons, ho, ha]
      exact ⟨rfl, rfl⟩
    · next hk =>
      rw [hl.resolve_left hk] at ho ha ⊢
      exact ⟨ho, ha⟩

/-- Only successful assignments matter to a history, and each of them only to its target.  Lines
that are no successful assignments can be taken out, whichever and how many: the remaining lines
have the outcomes that they have among all lines, and leave the same store.  An assignment changes
at most the value of its target, no line takes a binding away, and what is copied to a name stays
its value until the name is assigned another one. -/
theorem outcomes_remaining (s : Store) (ls : List Text) :
    (∀ keep : Nat → Bool, (∀ i x, (targets s ls)[i]? = some (some x) → keep i = true) →
      outcomes s (remaining keep ls) = remaining keep (outcomes s ls) ∧
        after s (remaining keep ls) = after s ls) ∧
    (∀ l x, target? s l = some x → s.AgreesBut x (execute s l).2) ∧
    s.names <+: (after s ls).names ∧
    ∀ l x sign y v, Statement.classify l = .assign x (.copy sign y) → s.get? y = some v →
      target? s l = some x ∧
        (some x ∉ targets (execute s l).2 ls → (after s (l :: ls)).get? x = some (sign.apply v)) := by
  refine ⟨history_remaining, fun l x => agreesBut_execute, names_prefix_after s ls, ?_⟩
  intro l x sign y v hl hv
  have hexecute := execute_copy hl hv
  refine ⟨by simp [target?, hl, hexecute], fun hx => ?_⟩
  rw [after_cons, get?_after_of_not_mem hx, hexecute]
  exact Store.get?_assign_self s x _

/-- A show and an assignment that fails are taken out; `c` keeps the copy of what `a` was. -/
theorem outcomes_remaining_copy :
    targets (.ofList [(['a'], 2)])
        ["b = -a".toList, "b".toList, "a = z".toList, "a=5".toList, "b".toList] =
      [some ['b'], none, none, some ['a'], none] ∧
    outcomes (.ofList [(['a'], 2)]) ["b = -a".toList, "a=5".toList, "b".toList] =
      [.ok .silent, .ok .silent, .ok (.print "-2".toList)] ∧
    after (.ofList [(['a'], 2)]) ["b = -a".toList, "a=5".toList, "b".toList] =
      .ofList [(['a'], 5), (['b'], -2)] ∧
    (after (.ofList [(['a'], 2)]) ["c = a".toList, "b = -a".toList, "b".toList, "a = z".toList,
      "a=5".toList, "b".toList]).get? ['c'] = some 2 := by
  have htargets : targets (.ofList [(['a'], 2)])
      ["b = -a".toList, "b".toList, "a = z".toList, "a=5".toList, "b".toList] =
        [some ['b'], none, none, some ['a'], none] := by decide
  obtain ⟨hremaining, -, -, hcopy⟩ := outcomes_remaining (.ofList [(['a'], 2)])
    ["b = -a".toList, "b".toList, "a = z".toList, "a=5".toList, "b".toList]
  have hkept := hremaining (fun i => i ≠ 1 ∧ i ≠ 2) fun i x hi => by
    rw [htargets] at hi
    match i with
    | 0 | 3 | 4 => rfl
    | 1 | 2 => cases hi
    | i + 5 => cases hi
  have hc := hcopy "c = a".toList ['c'] .plus ['a'] 2 (by decide) (by decide)
  exact ⟨htargets, hkept.1.trans rfl, hkept.2.trans (by decide), hc.2 (by decide)⟩

end Session

end LineCalc
