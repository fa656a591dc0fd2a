import LineCalc.Tree

/-!
# Trees from their terms

The terms of trees, one tree after another, determine the trees (`readBack_postorders`).  So no two
trees have the same terms in postorder (`postorder_injective`).
-/

namespace LineCalc.Tree

/-- The terms of trees, one tree after another. -/
def postorders (ts : List Tree) : Postfix := ts.flatMap postorder

/-- The trees that terms build on top of others, the latest first.  An operator without two trees
before it leaves nothing. -/
def readBack : List Tree → Postfix → List Tree
  | ts, [] => ts
  | ts, .int n :: p => readBack (leaf n :: ts) p
  | r :: l :: ts, .op o :: p => readBack (node o l r :: ts) p
  | _, .op _ :: _ => []

theorem readBack_postorder (t : Tree) (ts : List Tree) (p : Postfix) :
    readBack ts (t.postorder ++ p) = readBack (t :: ts) p := by
  induction t generalizing ts p with
  | leaf n => rfl
  | node o l r ihl ihr =>
    rw [postorder, List.append_assoc, List.append_assoc, ihl, ihr]
    rfl

theorem readBack_postorders (ts us : List Tree) :
    readBack us (postorders ts) = ts.reverse ++ us := by
  induction ts generalizing us with
  | nil => rfl
  | cons t ts ih =>
    rw [postorders, List.flatMap_cons, readBack_postorder, List.reverse_cons, List.append_assoc]
    exact ih (t :: us)

theorem postorders_injective : Function.Injective postorders := by
  intro ts us h
  have hread := congrArg (readBack []) h
  rw [readBack_postorders, readBack_postorders, List.append_nil, List.append_nil] at hread
  exact List.reverse_inj.1 hread

theorem postorders_append (ts us : List Tree) :
    postorders (ts ++ us) = postorders ts ++ postorders us :=
  List.flatMap_append

theorem postorders_singleton (t : Tree) : postorders [t] = t.postorder :=
  List.append_nil _

/-- No two trees have the same terms in postorder. -/
theorem postorder_injective : Function.Injective postorder := by
  intro t u h
  rw [← postorders_singleton, ← postorders_singleton u] at h
  exact List.singleton_inj.1 (postorders_injective h)

end LineCalc.Tree
