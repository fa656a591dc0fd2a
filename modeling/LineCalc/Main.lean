import LineCalc.Transcript

/-!
# The command line

The program reads its standard input to the end, runs the lines in it, prints what they print, and
returns the exit code of the session.

A dialogue at a terminal is not part of the library: no line editor is modelled, with its prompt,
its history, its interrupts and its failures.  A line that is typed in would be answered by
`Session.respond` like any other.  It may be trimmed first, which does not change the answer
(`Session.respond_trim`).
-/

namespace LineCalc

/-- All bytes that remain on a stream, after those that have been read. -/
partial def readAll (stream : IO.FS.Stream) (read : ByteArray) : IO ByteArray := do
  let chunk ← stream.read 65536
  if chunk.isEmpty then return read
  readAll stream (read ++ chunk)

end LineCalc

open LineCalc in
/-- Runs the session on standard input. -/
def main : IO UInt32 := do
  let input ← readAll (← IO.getStdin) .empty
  let tr := Transcript.ofInput .empty input.toList
  IO.print (String.ofList tr.output)
  IO.eprint (String.ofList tr.errorOutput)
  return tr.exitCode.toUInt32
