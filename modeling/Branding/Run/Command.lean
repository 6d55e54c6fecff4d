import Branding.Run.Build
import Branding.Run.Help
import Branding.Run.Install

/-!
# Commands

The first word names a command and the rest are its options. Without a word, and where help is
asked for, the help text is shown. A word that names no command is complained about, and the
help text shown, which is no failure.

## Main definitions

* `Surroundings` — where a command is run
* `Command`, `Command.ofString` — what a first word asks for
* `Command.run` — a command with its options
-/

namespace Branding

/-- Where a command is run. -/
structure Surroundings where
  workingDir : Path
  /-- The home directory, if there is one. -/
  home : Option String
  deriving DecidableEq, Repr

/-- What a first word asks for. -/
inductive Command where
  | help
  | build
  | install
  | unknown (word : String)
  deriving DecidableEq, Repr

namespace Command

/-- What a first word asks for. -/
def ofString (word : String) : Command :=
  if word = "help" ∨ word = "--help" ∨ word = "-h" then .help
  else if word = "build" then .build
  else if word = "install" then .install
  else .unknown word

/-- The context of a command with options. -/
def context (s : Surroundings) (tokens : List String) : Action RunContext := do
  Action.ofAnswer (← Action.query (RunContext.load s.home s.workingDir (.parse tokens)))

/-- A command with its options. -/
def runWith (s : Surroundings) (tokens : List String) : Command → Action Unit
  | .help => Action.writeSpans helpText
  | .build => do
    let _ ← Build.run (← context s tokens)
  | .install => do
    let _ ← Install.run (← context s tokens)
  | .unknown word => do
    Action.writeError s!"Error: Unknown command: {word}"
    Action.writeSpans helpText

/-- A command and its options. -/
def run (s : Surroundings) : List String → Action Unit
  | [] => Action.writeSpans helpText
  | word :: tokens => runWith s tokens (ofString word)

end Command

end Branding
