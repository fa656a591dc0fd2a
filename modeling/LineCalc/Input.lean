import LineCalc.Text.Basic

/-!
# Lines of an input

An input is a sequence of bytes.  A line feed ends a line, and one carriage return before it belongs
to the line end; the last line needs no end.  A line is a text if its bytes are UTF-8.
-/

namespace LineCalc.Input

/-- The bytes of an input, or of a line of it. -/
abbrev Bytes := List UInt8

/-- A line read backwards, without the carriage return before its line feed. -/
def dropReturn : Bytes → Bytes
  | 13 :: bs => bs
  | bs => bs

/-- The lines of an input of which the beginning of the first line has been read; that beginning is
given backwards. -/
def linesFrom (read : Bytes) : Bytes → List Bytes
  | [] => if read.isEmpty then [] else [read.reverse]
  | b :: bs =>
    if b = 10 then (dropReturn read).reverse :: linesFrom [] bs else linesFrom (b :: read) bs

/-- The lines of an input, without their ends. -/
def lines (bs : Bytes) : List Bytes := linesFrom [] bs

theorem linesFrom_append_newline (read x y : Bytes) :
    linesFrom read (x ++ 10 :: y) = linesFrom read (x ++ [10]) ++ lines y := by
  induction x generalizing read with
  | nil => simp [linesFrom, lines]
  | cons b x ih =>
    simp only [List.cons_append, linesFrom]
    split
    · rw [ih, List.cons_append]
    · exact ih _

/-- What follows the end of a line does not change the lines up to it. -/
theorem lines_append_newline (x y : Bytes) :
    lines (x ++ 10 :: y) = lines (x ++ [10]) ++ lines y :=
  linesFrom_append_newline [] x y

/-- The text that bytes encode in UTF-8. -/
def text? (bs : Bytes) : Option Text := (String.fromUTF8? ⟨bs.toArray⟩).map String.toList

end LineCalc.Input
