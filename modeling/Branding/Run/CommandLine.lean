import Branding.Run.Command

/-!
# The command line

In front of the command only a few flags are read: how much is logged, which changes nothing that
is shown here, and the version. They end at the first argument that is none of them, and
everything from there on belongs to the command. Two dashes end them too and are left out. Of
letters written together all must be flags, or the whole is no flag.

## Main definitions

* `Invocation`, `Invocation.ofArguments` — what the arguments ask for
* `Outcome`, `CommandLine.run` — what a program run with them shows, and how it ends
-/

namespace Branding

/-- What the arguments of the program ask for. -/
inductive Invocation where
  /-- A command and its options. -/
  | command (tokens : List String)
  | version
  /-- A flag is used as it cannot be. -/
  | misuse
  deriving DecidableEq, Repr

/-- What the program shows for its version. -/
def versionText : String := "nsbrand 0.3.0\n"

/-- What the program shows where a flag is used as it cannot be. -/
def misuseText : String := "error: a flag before the command takes no value\n"

namespace Invocation

/-- What one argument before the command is. -/
inductive Flag where
  | verbose
  | version
  /-- Where the flags end, itself left out. -/
  | stop
  | misuse
  /-- The first argument that belongs to the command. -/
  | token
  deriving DecidableEq, Repr

/-- What letters written together are: the version wherever it is among them. -/
def Flag.ofLetters (letters : List Char) : Flag :=
  if letters.isEmpty || !letters.all (fun c => c == 'v' || c == 'V') then .token
  else if letters.contains 'V' then .version
  else .verbose

/-- What one argument before the command is. -/
def Flag.ofString (s : String) : Flag :=
  match s.toList with
  | '-' :: '-' :: long =>
    if long = [] then .stop
    else if long = "verbose".toList then .verbose
    else if long = "version".toList then .version
    else if (afterWord? "verbose=".toList long).isSome then .misuse
    else if (afterWord? "version=".toList long).isSome then .misuse
    else .token
  | '-' :: letters => Flag.ofLetters letters
  | _ => .token

/-- What the arguments of the program ask for. -/
def ofArguments : List String → Invocation
  | [] => .command []
  | s :: rest =>
    match Flag.ofString s with
    | .verbose => ofArguments rest
    | .version => .version
    | .stop => .command rest
    | .misuse => .misuse
    | .token => .command (s :: rest)

end Invocation

/-- What a run of the program shows, and how it ends. -/
structure Outcome where
  exitCode : Nat
  output : List Span := []
  errors : List Span := []
  /-- What of the output comes before the user has to type something, if the user has to. -/
  prompted : Option (List Span) := none
  deriving DecidableEq, Repr

namespace CommandLine

/-- How a run of a command ends for the program: a fault is shown on the error output. -/
def outcomeOf (result : Except Fault Unit) (console : Console) : Outcome :=
  let errors :=
    match result with
    | .ok () => []
    | .error fault => [⟨.red, "Error: " ++ fault.message⟩, ⟨.plain, "\n"⟩]
  { exitCode := if errors.isEmpty then 0 else 1
    output := console.output
    errors := console.errors ++ errors
    prompted := console.prompted }

/-- The program run with arguments: how it ends, and the files afterwards. -/
def run (s : Surroundings) (input : ByteArray) (arguments : List String) (t : Tree) :
    Outcome × Tree :=
  match Invocation.ofArguments arguments with
  | .version => ({ exitCode := 0, output := [⟨.plain, versionText⟩] }, t)
  | .misuse => ({ exitCode := 2, errors := [⟨.plain, misuseText⟩] }, t)
  | .command tokens =>
    let (result, w) := Command.run s tokens (.typed input t)
    (outcomeOf result w.console, w.tree)

end CommandLine

end Branding
