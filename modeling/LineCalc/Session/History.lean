import LineCalc.Session

/-!
# Several lines in a row

A history is a list of lines that are executed one after another on a store.  `/exit` is a line like
the others here: it is the reader of the input who stops at it, not the session.

Of all lines only successful assignments leave a mark on the store; `target?` is the name that such
a line binds.
-/

namespace LineCalc.Session

/-- The store after the lines. -/
def after (s : Store) (ls : List Text) : Store := ls.foldl (fun s l => (execute s l).2) s

/-- The outcomes of the lines. -/
def outcomes (s : Store) : List Text → List (Except Fault Outcome)
  | [] => []
  | l :: ls => (execute s l).1 :: outcomes (execute s l).2 ls

/-- The name that a line assigns a value to.  It is only counted if the line is carried out. -/
def target? (s : Store) (line : Text) : Option Name :=
  match Statement.classify line, (execute s line).1 with
  | .assign x _, .ok _ => some x
  | _, _ => none

/-- The names that the lines assign values to. -/
def targets (s : Store) : List Text → List (Option Name)
  | [] => []
  | l :: ls => target? s l :: targets (execute s l).2 ls

/-- The elements of a list at the places that are kept; those at the other places are taken out. -/
def remaining {α : Type} (keep : Nat → Bool) : List α → List α
  | [] => []
  | a :: as =>
    if keep 0 then a :: remaining (fun i => keep (i + 1)) as
    else remaining (fun i => keep (i + 1)) as

theorem after_cons (s : Store) (l : Text) (ls : List Text) :
    after s (l :: ls) = after (execute s l).2 ls := rfl

end LineCalc.Session
