import LineCalc.Text.Numeral

/-!
# Variables

A store binds names to integers.  It lists its bindings in the order in which the names were first
assigned; an assignment to a bound name changes the value and keeps the place.

Look-up and assignment do not search the list: they go through an index of the places of the names
in it.  A `Table` holds list and index, and a `Store` is a table in which the two belong together.
-/

namespace LineCalc

/-- A name without a value. -/
structure UnknownVariable where
  name : Name
deriving DecidableEq, Repr

/-- The message for a name without a value. -/
def UnknownVariable.message (e : UnknownVariable) : Text :=
  "Unknown variable: ".toList ++ e.name

/-- A list of bindings, and an index of it. -/
structure Table where
  /-- The bindings, in the order in which the names were first assigned. -/
  entries : List (Name × Int)
  /-- The places of the names among the bindings. -/
  index : Name → Option Nat

namespace Table

/-- The table without bindings. -/
def empty : Table := ⟨[], fun _ => none⟩

/-- The table after an assignment. -/
def assign (t : Table) (x : Name) (v : Int) : Table :=
  match t.index x with
  | some i => { t with entries := t.entries.modify i fun e => (e.1, v) }
  | none => ⟨t.entries ++ [(x, v)], fun y => if y = x then some t.entries.length else t.index y⟩

/-- The index gives a name a place just if the binding at that place has the name. -/
def Coupled (t : Table) : Prop := ∀ x i, t.index x = some i ↔ t.entries[i]?.map Prod.fst = some x

theorem coupled_empty : empty.Coupled := by
  simp [Coupled, empty]

theorem coupled_assign {t : Table} (h : t.Coupled) (x : Name) (v : Int) :
    (t.assign x v).Coupled := by
  intro y j
  unfold assign
  split
  · -- The value at a place is replaced, and all names stay where they are.
    simp only [h y j, List.getElem?_modify]
    split <;> simp [Function.comp_def]
  · next hx =>
    have hnew : ∀ i, t.entries[i]?.map Prod.fst ≠ some x := fun i hi => by
      rw [(h x i).2 hi] at hx
      cases hx
    by_cases hyx : y = x
    · subst hyx
      rw [List.getElem?_append]
      split
      · next hj => simp [hnew j, Nat.ne_of_gt hj]
      · next hj =>
        cases hk : j - t.entries.length with
        | zero => simp; omega
        | succ k => simp; omega
    · simp only [if_neg hyx, h y j, List.getElem?_append]
      split
      · rfl
      · next hj =>
        rw [List.getElem?_eq_none (by omega)]
        cases j - t.entries.length <;> simp [Ne.symm hyx]

end Table

/-- Bindings of names to integers, each name at most once, with the places of the names. -/
structure Store extends Table where
  coupled : toTable.Coupled

namespace Store

/-- The store without bindings. -/
def empty : Store := ⟨.empty, Table.coupled_empty⟩

/-- The bound names. -/
def names (s : Store) : List Name := s.entries.map Prod.fst

/-- The number of bindings. -/
def size (s : Store) : Nat := s.entries.length

/-- Whether nothing is bound. -/
def isEmpty (s : Store) : Bool := s.entries.isEmpty

/-- The place of a name among the bindings. -/
def slot? (s : Store) (x : Name) : Option Nat := s.index x

/-- The value of a name. -/
def get? (s : Store) (x : Name) : Option Int :=
  (s.slot? x).bind fun i => s.entries[i]?.map Prod.snd

/-- The value of a name that is expected to be bound. -/
def resolve (s : Store) (x : Name) : Except UnknownVariable Int :=
  match s.get? x with
  | some v => .ok v
  | none => .error ⟨x⟩

/-! ## The places of the names -/

theorem slot?_eq_some_iff {s : Store} {x : Name} {i : Nat} :
    s.slot? x = some i ↔ s.names[i]? = some x := by
  rw [slot?, s.coupled x i, names, List.getElem?_map]

theorem names_of_slot? {s : Store} {x : Name} {i : Nat} (h : s.slot? x = some i) :
    s.names[i]? = some x :=
  slot?_eq_some_iff.1 h

theorem slot?_eq_none_iff {s : Store} {x : Name} : s.slot? x = none ↔ x ∉ s.names := by
  rw [Option.eq_none_iff_forall_ne_some, List.mem_iff_getElem?, not_exists]
  exact forall_congr' fun i => not_congr slot?_eq_some_iff

theorem slot?_lt_size {s : Store} {x : Name} {i : Nat} (h : s.slot? x = some i) : i < s.size := by
  obtain ⟨hi, -⟩ := List.getElem?_eq_some_iff.1 (names_of_slot? h)
  simpa [names, size] using hi

/-- No name is bound twice, since the index gives it one place. -/
theorem nodup_names (s : Store) : s.names.Nodup := by
  rw [List.nodup_iff_pairwise_ne, List.pairwise_iff_getElem]
  intro i j hi hj hij heq
  have hslot {k : Nat} (hk : k < s.names.length) : s.slot? s.names[k] = some k :=
    slot?_eq_some_iff.2 (List.getElem?_eq_getElem hk)
  have := (hslot hi).symm.trans ((congrArg s.slot? heq).trans (hslot hj))
  exact Nat.ne_of_lt hij (Option.some.inj this)

/-- The list of its bindings determines a store. -/
@[ext] theorem ext {s t : Store} (h : s.entries = t.entries) : s = t := by
  obtain ⟨⟨es, m⟩, hs⟩ := s
  obtain ⟨⟨fs, n⟩, ht⟩ := t
  obtain rfl : es = fs := h
  obtain rfl : m = n := funext fun x => Option.ext fun i => (hs x i).trans (ht x i).symm
  rfl

instance : DecidableEq Store := fun s t =>
  decidable_of_iff (s.entries = t.entries) ⟨Store.ext, fun h => h ▸ rfl⟩

/-! ## Assignment -/

/-- The store after an assignment. -/
def assign (s : Store) (x : Name) (v : Int) : Store :=
  ⟨s.toTable.assign x v, Table.coupled_assign s.coupled x v⟩

/-- The store after the assignments of a list, made in order. -/
def ofList (es : List (Name × Int)) : Store :=
  es.foldl (fun s e => s.assign e.1 e.2) empty

theorem entries_assign_of_slot? {s : Store} {x : Name} {i : Nat} (h : s.slot? x = some i) (v : Int) :
    (s.assign x v).entries = s.entries.modify i fun e => (e.1, v) := by
  have h : s.index x = some i := h
  simp only [assign, Table.assign, h]

theorem entries_assign_of_not_mem {s : Store} {x : Name} (h : x ∉ s.names) (v : Int) :
    (s.assign x v).entries = s.entries ++ [(x, v)] := by
  have h : s.index x = none := slot?_eq_none_iff.2 h
  simp only [assign, Table.assign, h]

theorem names_assign (s : Store) (x : Name) (v : Int) :
    (s.assign x v).names = if x ∈ s.names then s.names else s.names ++ [x] := by
  cases h : s.slot? x with
  | some i =>
    rw [if_pos (List.mem_of_getElem? (names_of_slot? h)), names, entries_assign_of_slot? h]
    refine List.ext_getElem? fun j => ?_
    rw [List.getElem?_map, List.getElem?_modify, names, List.getElem?_map]
    split <;> simp [Function.comp_def]
  | none =>
    have hx := slot?_eq_none_iff.1 h
    rw [if_neg hx, names, entries_assign_of_not_mem hx, List.map_append]
    rfl

theorem forall_mem_names_assign {p : Name → Prop} {s : Store} {x : Name} (h : ∀ y ∈ s.names, p y)
    (hx : p x) (v : Int) : ∀ y ∈ (s.assign x v).names, p y := by
  rw [names_assign]
  intro y hy
  split at hy
  · exact h y hy
  · obtain hy | hy := List.mem_append.1 hy
    · exact h y hy
    · rwa [List.mem_singleton.1 hy]

theorem size_assign (s : Store) (x : Name) (v : Int) :
    (s.assign x v).size = if x ∈ s.names then s.size else s.size + 1 := by
  have h := congrArg List.length (names_assign s x v)
  rw [apply_ite List.length] at h
  simpa [names, size] using h

theorem get?_eq_none_iff {s : Store} {x : Name} : s.get? x = none ↔ x ∉ s.names := by
  cases h : s.slot? x with
  | none => simp [get?, h, slot?_eq_none_iff.1 h]
  | some i =>
    have hi : i < s.entries.length := slot?_lt_size h
    simp [get?, h, hi, List.mem_of_getElem? (names_of_slot? h)]

theorem get?_of_slot? {s : Store} {x : Name} {i : Nat} (h : s.slot? x = some i) :
    s.get? x = s.entries[i]?.map Prod.snd := by
  simp [get?, h]

theorem get?_eq_some_iff {s : Store} {x : Name} {v : Int} :
    s.get? x = some v ↔ (x, v) ∈ s.entries := by
  rw [List.mem_iff_getElem?]
  constructor
  · intro h
    obtain ⟨i, hi, hv⟩ := Option.bind_eq_some_iff.1 h
    obtain ⟨⟨y, w⟩, he, rfl⟩ := Option.map_eq_some_iff.1 hv
    have hy : s.names[i]? = some y := by rw [names, List.getElem?_map, he]; rfl
    obtain rfl : y = x := Option.some.inj (hy.symm.trans (names_of_slot? hi))
    exact ⟨i, he⟩
  · rintro ⟨i, he⟩
    have hx : s.names[i]? = some x := by rw [names, List.getElem?_map, he]; rfl
    rw [get?_of_slot? (slot?_eq_some_iff.2 hx), he]
    rfl

theorem resolve_eq_ok_iff {s : Store} {x : Name} {v : Int} :
    s.resolve x = .ok v ↔ s.get? x = some v := by
  unfold resolve
  cases s.get? x <;> simp

theorem resolve_eq_error_iff {s : Store} {x : Name} {e : UnknownVariable} :
    s.resolve x = .error e ↔ s.get? x = none ∧ e = ⟨x⟩ := by
  unfold resolve
  cases s.get? x <;> simp [eq_comm]

theorem get?_assign_self (s : Store) (x : Name) (v : Int) : (s.assign x v).get? x = some v := by
  cases h : s.slot? x with
  | some i =>
    have hx := names_of_slot? h
    have hi : i < s.entries.length := slot?_lt_size h
    have hn : (s.assign x v).slot? x = some i := by
      rw [slot?_eq_some_iff, names_assign, if_pos (List.mem_of_getElem? hx), hx]
    rw [get?_of_slot? hn, entries_assign_of_slot? h]
    simp [hi]
  | none =>
    have hx := slot?_eq_none_iff.1 h
    have hn : (s.assign x v).slot? x = some s.size := by
      rw [slot?_eq_some_iff, names_assign, if_neg hx]
      simp [names, size]
    rw [get?_of_slot? hn, entries_assign_of_not_mem hx]
    simp [size]

theorem names_prefix_assign (s : Store) (x : Name) (v : Int) : s.names <+: (s.assign x v).names := by
  rw [names_assign]
  split
  · exact List.prefix_refl _
  · exact List.prefix_append _ _

theorem slot?_assign_of_ne (s : Store) {x y : Name} (v : Int) (hyx : y ≠ x) :
    (s.assign x v).slot? y = s.slot? y := by
  cases hy : s.slot? y with
  | none =>
    have hn := slot?_eq_none_iff.1 hy
    rw [slot?_eq_none_iff, names_assign]
    split
    · exact hn
    · simp [hn, hyx]
  | some i =>
    obtain ⟨r, hr⟩ := names_prefix_assign s x v
    have hi := names_of_slot? hy
    rw [slot?_eq_some_iff, ← hr, List.getElem?_append_left]
    · exact hi
    · exact (List.getElem?_eq_some_iff.1 hi).1

theorem get?_assign_of_ne (s : Store) {x y : Name} (v : Int) (hyx : y ≠ x) :
    (s.assign x v).get? y = s.get? y := by
  rw [get?, get?, slot?_assign_of_ne s v hyx]
  cases hy : s.slot? y with
  | none => rfl
  | some j =>
    have hj : j < s.entries.length := slot?_lt_size hy
    simp only [Option.bind_some]
    cases hx : s.slot? x with
    | some i =>
      have hij : i ≠ j := by
        rintro rfl
        exact hyx (Option.some.inj ((names_of_slot? hy).symm.trans (names_of_slot? hx)))
      rw [entries_assign_of_slot? hx, List.getElem?_modify_ne _ _ hij]
    | none =>
      rw [entries_assign_of_not_mem (slot?_eq_none_iff.1 hx), List.getElem?_append_left hj]

/-! ## Output -/

/-- A binding as it is listed. -/
def renderEntry (e : Name × Int) : Text := e.1 ++ '=' :: Numeral.ofInt e.2

/-- The list of all bindings, in braces. -/
def render (s : Store) : Text :=
  '\x7b' :: [',', ' '].intercalate (s.entries.map renderEntry) ++ ['\x7d']

end Store

end LineCalc
