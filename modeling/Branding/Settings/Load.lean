import Branding.Fault
import Branding.Settings.Basic
import Branding.Text.Blank
import Branding.Toml.Parser
import Branding.Tree.Lookup

/-!
# Finding and checking the settings

The settings file is looked for in the working directory and then in each directory around it.
The search ends at the first directory that has the file, and at the first that is the root of a
repository, so that the settings of an enclosing project are never taken for one's own.

What is found is checked once, and everything after that relies on it: three settings must say
something, and the three that name files of a template tree must name something inside it.

## Main definitions

* `Settings.fileFrom?` — the settings file that counts
* `Settings.expandHome` — the settings with the home directory put in
* `Settings.problem?` — the first thing that is wrong with settings
* `Settings.load` — the settings that count in a directory

## Main results

* `Settings.problem?_eq_none_iff` — what may be relied on
-/

namespace Branding

namespace Settings

/-- The name of a settings file. -/
def fileName : String := "nsbrand.toml"

/-- The name of the directory that marks the root of a repository. -/
def repositoryMark : String := ".git"

/-- The settings file that counts for a list of directories, innermost first. -/
def fileAmong? (t : Tree) : List Path → Option Path
  | [] => none
  | directory :: outer =>
    if t.isFile (directory.child fileName) then some (directory.child fileName)
    else if t.isDirectory (directory.child repositoryMark) then none
    else fileAmong? t outer

/-- The settings file that counts in a directory. -/
def fileFrom? (t : Tree) (start : Path) : Option Path := fileAmong? t (start :: start.enclosing)

/-! ### The home directory -/

/-- A path with the home directory in the place of a tilde that stands for it: alone, or before
the first slash. -/
def expandTilde (home : Option String) (value : String) : String :=
  match home, value.toList with
  | some home, '~' :: rest =>
    if rest.isEmpty || rest.head? == some '/' then home ++ String.ofList rest else value
  | _, _ => value

/-- The settings with the home directory put in. -/
def expandHome (home : Option String) (s : Settings) : Settings :=
  { stateFile := expandTilde home s.stateFile
    template := { s.template with directory := expandTilde home s.template.directory }
    build := { s.build with output := expandTilde home s.build.output } }

/-! ### Checks -/

/-- A value that names something inside a tree: a relative path of names and dots, at least one
name among them. -/
def isInside (value : String) : Bool :=
  let components := (Path.ofString value).components
  !allWhite value &&
    components.all (fun | .name _ | .here => true | _ => false) &&
    components.any (fun | .name _ => true | _ => false)

/-- The settings that must say something. -/
def needed (s : Settings) : List (String × String) := [
  ("template.directory", s.template.directory),
  ("build.output", s.build.output),
  ("state_file", s.stateFile)]

/-- The settings that name files of a template tree. -/
def inner (s : Settings) : List (String × String) := [
  ("template.entry_helper", s.template.entryHelper),
  ("template.helpers_dir", s.template.helpersDir),
  ("template.loader_file", s.template.loaderFile)]

/-- The first thing that is wrong with settings. -/
def problem? (s : Settings) : Option SettingsProblem :=
  (s.needed.findSome? fun (key, value) => if allWhite value then some (.empty key) else none).or
    (s.inner.findSome? fun (key, value) =>
      if isInside value then none else some (.notInside key value))

/-- Settings that pass the checks say something, and name things inside the tree. -/
theorem problem?_eq_none_iff {s : Settings} :
    s.problem? = none ↔
      (∀ m ∈ s.needed, allWhite m.2 = false) ∧ ∀ m ∈ s.inner, isInside m.2 = true := by
  simp [problem?, Option.or_eq_none_iff, List.findSome?_eq_none_iff]

/-! ### The settings that count -/

/-- The settings a file gives. -/
def read (t : Tree) (file : Path) : Except Fault Settings :=
  match t.readText file with
  | .error r => .error ((Fault.of (.refused r)).during (.readingSettings file))
  | .ok text =>
    match (Toml.parse? text).bind ofToml? with
    | some s => .ok s
    | none => .error (.of (.settings (.unparsable file)))

/-- The settings that count in a directory, checked. -/
def load (home : Option String) (t : Tree) (start : Path) : Except Fault Settings := do
  let s ←
    match fileFrom? t start with
    | some file => read t file
    | none => .ok {}
  let s := s.expandHome home
  match s.problem? with
  | some problem => .error ((Fault.of (.settings problem)).during .checkingSettings)
  | none => .ok s

end Settings

end Branding
