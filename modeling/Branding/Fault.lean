import Branding.Brand
import Branding.Path
import Branding.Text.Quoted
import Branding.Tree.Refusal

/-!
# What can go wrong in a run

A run that fails gives one *fault*: its cause, and the activities it was found in. Causes are
values, so that a caller can tell them apart without reading a message; a message is made at the
end, from the outermost activity to the cause.

The causes before `Cause.files` are found by looking at what the user asked for, the others
while files are worked on.

## Main definitions

* `Cause`, `Cause.text`
* `Activity`, `Activity.text`
* `Fault`, `Fault.message`
* `Fault.during` — the same fault, seen from further out

## Main results

* `Fault.message_during` — an activity puts its text in front
-/

namespace Branding

/-- What is wrong with a settings file. -/
inductive SettingsProblem where
  /-- It is not written in the settings language, or sets what is no setting. -/
  | unparsable (file : Path)
  /-- A setting that must say something says nothing. -/
  | empty (key : String)
  /-- A setting that must name something inside the template tree does not. -/
  | notInside (key value : String)
  /-- Told by its own text. -/
  | other (text : String)
  deriving DecidableEq, Repr

/-- What is wrong with the options of a run. -/
inductive ArgumentProblem where
  /-- An option that takes a value was given without one. -/
  | noValue (key : String)
  /-- An option was given a value that says nothing. -/
  | emptyValue (key : String)
  /-- There is no loader strategy of this name. -/
  | unknownStrategy (raw : String)
  /-- Told by its own text. -/
  | other (text : String)
  deriving DecidableEq, Repr

/-- What is wrong with files that a run comes upon. -/
inductive FilesProblem where
  /-- Something that is no directory has the name a directory is to have. -/
  | obstructed (p : Path)
  /-- Told by its own text. -/
  | other (text : String)
  deriving DecidableEq, Repr

/-- What is wrong when a tree is copied. -/
inductive CopyProblem where
  /-- There is nothing to copy. -/
  | missing (p : Path)
  /-- What is to be copied is no directory. -/
  | notDirectory (p : Path)
  /-- The system refuses a step. -/
  | refused (r : Refusal)
  deriving DecidableEq, Repr

/-- Why a run fails. -/
inductive Cause where
  /-- No brand was given and none is remembered. -/
  | noBrand
  /-- A text that is to be a brand is no identifier. -/
  | badBrand (raw : String)
  /-- There is no template tree where one is to be. -/
  | noTemplate (p : Path)
  /-- The output would lie in the template tree, or the template tree in the output. -/
  | overlap (output template : Path)
  | settings (problem : SettingsProblem)
  | argument (problem : ArgumentProblem)
  | files (problem : FilesProblem)
  | copy (problem : CopyProblem)
  /-- The system refuses. -/
  | refused (r : Refusal)
  deriving DecidableEq, Repr

/-- What a run was doing when it failed. -/
inductive Activity where
  | makingDirectory (p : Path)
  | readingFile (p : Path)
  | writingFile (p : Path)
  | removingFile (p : Path)
  | removingDirectory (p : Path)
  /-- Going through a directory that is to be removed. -/
  | walking (p : Path)
  /-- Going through a tree that is to be branded. -/
  | walkingTree (p : Path)
  /-- Coming to one entry of a walk, where the system refused. -/
  | visiting (p : Path) (r : Refusal)
  | copyingTree (source target : Path)
  | copyingTemplate (template output : Path)
  | brandingSources
  | generatingLoader
  | brandingLoader
  | readingSettings (p : Path)
  | checkingSettings
  | loadingSettings
  /-- Taking the answer to a question. -/
  | readingAnswer
  deriving DecidableEq, Repr

/-! ### Texts -/

def SettingsProblem.text : SettingsProblem → String
  | .unparsable file => s!"Failed to parse {file.text}: TOML parse error"
  | .empty key => s!"'{key}' cannot be empty."
  | .notInside key value =>
    s!"'{key}' must be a non-empty path relative to the template tree, got '{value}'."
  | .other text => text

def ArgumentProblem.text : ArgumentProblem → String
  | .noValue key => s!"--{key} requires a value (--{key}=<value>)"
  | .emptyValue key => s!"--{key} cannot be empty"
  | .unknownStrategy raw =>
    s!"Unknown loader strategy '{raw}'. Expected 'self-contained' or 'external'."
  | .other text => text

def FilesProblem.text : FilesProblem → String
  | .obstructed p => s!"Path exists but is not a directory: {quoted p.text}"
  | .other text => text

/-- Of the refusals, only a missing entry and one that is in the way are told by their texts. -/
def CopyProblem.text : CopyProblem → String
  | .missing p => s!"Path \"{p.text}\" does not exist or you don't have access!"
  | .notDirectory p => s!"Path \"{p.text}\" is not a directory!"
  | .refused .absent => Refusal.absent.text
  | .refused .present => Refusal.present.text
  | .refused _ => "Io error. Look inside err_kind for more details."

def Cause.text : Cause → String
  | .noBrand => "No prefix configured. Run with --prefix=<Name> to set one."
  | .badBrand raw =>
    s!"Invalid prefix: '{raw}'. " ++
      "Prefix must be a valid namespace segment (e.g. MyPlugin, My_Plugin)."
  | .noTemplate p => s!"Source directory not found: {p.text}"
  | .overlap output template =>
    s!"Output directory '{output.text}' overlaps the template directory '{template.text}'."
  | .settings problem => s!"Configuration error: {problem.text}"
  | .argument problem => s!"Argument parsing error: {problem.text}"
  | .files problem => s!"Filesystem error: {problem.text}"
  | .copy problem => problem.text
  | .refused r => r.text

def Activity.text : Activity → String
  | .makingDirectory p => s!"Failed to create directory {quoted p.text}"
  | .readingFile p => s!"Failed to read file {quoted p.text}"
  | .writingFile p => s!"Failed to write to file {quoted p.text}"
  | .removingFile p => s!"Failed to remove file {quoted p.text}"
  | .removingDirectory p => s!"Failed to remove directory {quoted p.text}"
  | .walking p => s!"Failed to walk {quoted p.text}"
  | .walkingTree p => s!"Failed to walk directory {p.text}"
  | .visiting p r => s!"IO error for operation on {p.text}: {r.text}"
  | .copyingTree source target =>
    s!"Failed to copy dir {quoted source.text} to {quoted target.text}"
  | .copyingTemplate template output =>
    s!"Failed to copy template {template.text} into {output.text}"
  | .brandingSources => "Namespace transformation failed"
  | .generatingLoader => "Loader generation failed"
  | .brandingLoader => "Loader rewrite failed"
  | .readingSettings p => s!"Failed to read settings file: {p.text}"
  | .checkingSettings => "Settings validation failed"
  | .loadingSettings => "Failed to load nsbrand settings"
  | .readingAnswer => "Failed to read confirmation from stdin"

/-! ### Faults -/

/-- A cause, and the activities it was found in, outermost first. -/
structure Fault where
  activities : List Activity
  cause : Cause
  deriving DecidableEq, Repr

namespace Fault

/-- A cause by itself. -/
def of (cause : Cause) : Fault := ⟨[], cause⟩

/-- The same fault, seen from an activity around it. -/
def during (activity : Activity) (fault : Fault) : Fault :=
  { fault with activities := activity :: fault.activities }

@[simp] theorem cause_during (activity : Activity) (fault : Fault) :
    (fault.during activity).cause = fault.cause := rfl

/-- The whole of a fault in one line. -/
def message (fault : Fault) : String :=
  ": ".intercalate (fault.activities.map Activity.text ++ [fault.cause.text])

/-- An activity puts its text in front. -/
theorem message_during (activity : Activity) (fault : Fault) :
    (fault.during activity).message = activity.text ++ ": " ++ fault.message := by
  obtain ⟨activities, cause⟩ := fault
  cases activities <;> simp [during, message]

end Fault

end Branding
