import Branding.Layout
import Branding.Options
import Branding.Settings.Load

/-!
# What a run is about

What is common to all commands: the working directory, the settings that count in it, and the
options. An option wins over the setting it stands for. Relative paths are followed from the
working directory, and paths are shown as ways from there.

## Main definitions

* `RunContext`, `RunContext.load`
* `RunContext.templateDir`, `RunContext.outputDir`, `RunContext.strategy`, `RunContext.stateFile`
* `RunContext.shown` — a path as it is shown
-/

namespace Branding

/-- What a run is about. -/
structure RunContext where
  workingDir : Path
  settings : Settings
  options : Options
  layout : Layout
  deriving DecidableEq, Repr

namespace RunContext

/-- The context of a run in a directory. -/
def load (home : Option String) (workingDir : Path) (options : Options) (t : Tree) :
    Except Fault RunContext :=
  match Settings.load home t workingDir with
  | .error fault => .error (fault.during .loadingSettings)
  | .ok settings => .ok ⟨workingDir, settings, options, .ofSettings settings.template⟩

/-- Nothing is to be written. -/
def isPreview (c : RunContext) : Bool := c.options.has "dry-run"

/-- No question is to be asked. -/
def isForced (c : RunContext) : Bool := c.options.has "force"

/-- The brand that is asked for. -/
def explicitBrand? (c : RunContext) : Except Fault (Option String) := c.options.value? "prefix"

/-- A path as the user writes it, followed from the working directory. -/
def resolve (c : RunContext) (raw : String) : Path := c.workingDir.join (.ofString raw)

/-- The value of an option that must say something. -/
def wordOf? (c : RunContext) (key : String) : Except Fault (Option String) := do
  match ← c.options.value? key with
  | some raw => if allWhite raw then .error (.of (.argument (.emptyValue key))) else .ok (some raw)
  | none => .ok none

/-- The template tree. -/
def templateDir (c : RunContext) : Except Fault Path := do
  return c.resolve ((← c.wordOf? "source").getD c.settings.template.directory)

/-- The output directory of a build. -/
def outputDir (c : RunContext) : Except Fault Path := do
  return c.resolve ((← c.wordOf? "output").getD c.settings.build.output)

/-- The strategy of a name, which must be known. -/
def strategyOf (raw : String) : Except Fault LoaderStrategy :=
  match LoaderStrategy.ofString? raw with
  | some strategy => .ok strategy
  | none => .error (.of (.argument (.unknownStrategy raw)))

/-- How a build is to be loaded. -/
def strategy (c : RunContext) : Except Fault LoaderStrategy := do
  match ← c.options.value? "loader" with
  | some raw => strategyOf raw
  | none => return c.settings.build.loader

/-- The file that remembers the brand. -/
def stateFile (c : RunContext) : Path := c.resolve c.settings.stateFile

/-- A path as it is shown: the way to it from the working directory. -/
def shown (c : RunContext) (p : Path) : String :=
  let way := ((p.relativeTo? c.workingDir).getD p).text
  let trimmed := String.ofList (way.toList.reverse.dropWhile (· == '/')).reverse
  if trimmed = "" then "." else trimmed

end RunContext

end Branding
