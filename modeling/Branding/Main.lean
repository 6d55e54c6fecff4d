import Branding.Run.Snapshot

/-!
# The program

The outermost layer: arguments, environment, files and terminal on one side, and a pure run on
the other. A run that has to ask is made twice, first up to the question, and again with what
the user has typed.
-/

namespace Branding.Program

/-- Whether the output is to have colours: as the environment says, or else where it is a
terminal. -/
def wantsColours : IO Bool := do
  let set (name : String) : IO (Option Bool) := do return (← IO.getEnv name).map (· != "0")
  if (← set "CLICOLOR_FORCE") = some true then return true
  if (← set "NO_COLOR").isSome then return false
  return (← set "CLICOLOR").getD true && (← (← IO.getStdout).isTty)

/-- Spans written to a stream. -/
def put (stream : IO.FS.Stream) (colours : Bool) (spans : List Span) : IO Unit := do
  stream.putStr (renderSpans colours spans)
  stream.flush

/-- The bytes of a stream up to the end of a line, or of the stream. -/
def takeLine (stream : IO.FS.Stream) : IO ByteArray := do
  let mut line := ByteArray.empty
  repeat
    let byte ← stream.read 1
    line := line ++ byte
    if byte.isEmpty || byte.data.contains 0x0A then break
  return line

/-- The program, with its arguments. The answer is its exit code. -/
def run (arguments : List String) : IO UInt32 := do
  let workingDir ← IO.currentDir
  let s : Surroundings := ⟨.ofString workingDir.toString, ← IO.getEnv "HOME"⟩
  let colours ← wantsColours
  let output ← IO.getStdout
  let files ← Snapshot.take s arguments
  let (first, _) := CommandLine.run s .empty arguments files
  let shown := first.prompted.getD []
  put output colours shown
  let typed ← if first.prompted.isSome then takeLine (← IO.getStdin) else pure .empty
  let (outcome, files') := CommandLine.run s typed arguments files
  Snapshot.apply files files'
  put output colours (outcome.output.drop shown.length)
  put (← IO.getStderr) colours outcome.errors
  return outcome.exitCode.toUInt32

end Branding.Program

/-- The entry point of the program. -/
def main (arguments : List String) : IO UInt32 := Branding.Program.run arguments
