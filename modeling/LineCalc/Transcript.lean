import LineCalc.Input
import LineCalc.Session

/-!
# Transcript of an input

The transcript of an input is what a session prints that runs the lines of the input, and how the
session ends: at the end of the input, at `/exit`, or at a line that is not UTF-8.
-/

namespace LineCalc

/-- How a session ends. -/
inductive Ending where
  /-- All lines have been run; the store is the one after the last line. -/
  | inputEnd (s : Store)
  | exit
  | malformedLine
deriving DecidableEq

/-- What a session prints, and how it ends. -/
structure Transcript where
  output : Text
  ending : Ending
deriving DecidableEq

namespace Transcript

/-- The transcript with a line of output before it. -/
def print (t : Text) (tr : Transcript) : Transcript := { tr with output := t ++ '\n' :: tr.output }

/-- The transcript of the lines that remain to be run on a store. -/
def ofLines (s : Store) : List Input.Bytes → Transcript
  | [] => ⟨[], .inputEnd s⟩
  | l :: ls =>
    match Input.text? l with
    | none => ⟨[], .malformedLine⟩
    | some t =>
      match Session.respond s t with
      | (.silent, s') => ofLines s' ls
      | (.print u, s') => print u (ofLines s' ls)
      | (.exit u, _) => print u ⟨[], .exit⟩

/-- The transcript of an input that is run on a store. -/
def ofInput (s : Store) (bs : Input.Bytes) : Transcript := ofLines s (Input.lines bs)

/-- The transcript of further lines that follow on one. -/
def andThen (tr : Transcript) (next : Store → Transcript) : Transcript :=
  match tr.ending with
  | .inputEnd s => { next s with output := tr.output ++ (next s).output }
  | _ => tr

theorem print_andThen (t : Text) (tr : Transcript) (next : Store → Transcript) :
    (print t tr).andThen next = print t (tr.andThen next) := by
  obtain ⟨o, e⟩ := tr
  cases e <;> simp [andThen, print]

theorem ofLines_append (s : Store) (ls ms : List Input.Bytes) :
    ofLines s (ls ++ ms) = (ofLines s ls).andThen fun s => ofLines s ms := by
  induction ls generalizing s with
  | nil => rfl
  | cons l ls ih =>
    rw [List.cons_append, ofLines, ofLines]
    cases Input.text? l with
    | none => rfl
    | some t =>
      rcases hr : Session.respond s t with ⟨o, s'⟩
      cases o with
      | silent => simp only [hr, ih]
      | print u => simp only [hr, ih, print_andThen]
      | exit u => simp only [hr]; rfl

/-- What the session reports as an error. -/
def errorOutput (tr : Transcript) : Text :=
  match tr.ending with
  | .malformedLine => "Error: stream did not contain valid UTF-8\n".toList
  | _ => []

/-- The exit code of the session. -/
def exitCode (tr : Transcript) : Nat :=
  match tr.ending with
  | .malformedLine => 1
  | _ => 0

end Transcript

end LineCalc
