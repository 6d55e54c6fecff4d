import Branding.Loader.Strategy
import Branding.Toml.Basic

/-!
# Settings of a project

Settings say where the template tree lives, how it is laid out, where builds go and how they are
loaded. Each has a default, and a settings file gives those that differ. It may give nothing that
is no setting.

A group of settings is a table, or a list of the values in the order in which the group declares
them; what such a list leaves out has its default, and what goes beyond the last is not looked at.

## Main definitions

* `TemplateSettings`, `BuildSettings`, `Settings` — the settings and their defaults
* `Settings.ofToml?` — the settings a settings file gives
-/

namespace Branding

/-- Where the template tree lives, and where in it the special files are. -/
structure TemplateSettings where
  directory : String := "src"
  entryHelper : String := "Helpers/main.php"
  helpersDir : String := "Helpers"
  loaderFile : String := "autoload.php"
  deriving DecidableEq, Repr

/-- Where builds go and how they are loaded. -/
structure BuildSettings where
  output : String := "core"
  loader : LoaderStrategy := .selfContained
  deriving DecidableEq, Repr

/-- The settings of a project. -/
structure Settings where
  /-- The file that remembers choices between runs. -/
  stateFile : String := "nsbrand.json"
  template : TemplateSettings := {}
  build : BuildSettings := {}
  deriving DecidableEq, Repr

namespace Toml

/-- The values of a group's settings, in their order, where the group has no others. -/
def settings? (keys : List String) : Toml → Option (List (Option Toml))
  | .table _ members =>
    if members.all fun m => keys.contains m.1 then some (keys.map fun key => members.lookup key)
    else none
  | .array items => some ((List.range keys.length).map (items[·]?))
  | .string _ | .other => none

/-- The text of a setting, or its default where it is not given. -/
def textOr? (fallback : String) : Option Toml → Option String
  | none => some fallback
  | some (.string s) => some s
  | some _ => none

/-- The strategy a setting names: by a text, or by the one key of a table that holds nothing. -/
def strategyOr? (fallback : LoaderStrategy) : Option Toml → Option LoaderStrategy
  | none => some fallback
  | some (.string s) => LoaderStrategy.ofString? s
  | some (.table _ [(s, .table _ [])]) => LoaderStrategy.ofString? s
  | some (.table _ [(s, .array [])]) => LoaderStrategy.ofString? s
  | some _ => none

end Toml

/-- The settings of a template group. -/
def TemplateSettings.ofToml? (group : Toml) : Option TemplateSettings := do
  let fallback : TemplateSettings := {}
  match ← group.settings? ["directory", "entry_helper", "helpers_dir", "loader_file"] with
  | [directory, entryHelper, helpersDir, loaderFile] =>
    return {
      directory := ← Toml.textOr? fallback.directory directory
      entryHelper := ← Toml.textOr? fallback.entryHelper entryHelper
      helpersDir := ← Toml.textOr? fallback.helpersDir helpersDir
      loaderFile := ← Toml.textOr? fallback.loaderFile loaderFile }
  | _ => none

/-- The settings of a build group. -/
def BuildSettings.ofToml? (group : Toml) : Option BuildSettings := do
  let fallback : BuildSettings := {}
  match ← group.settings? ["output", "loader"] with
  | [output, loader] =>
    return {
      output := ← Toml.textOr? fallback.output output
      loader := ← Toml.strategyOr? fallback.loader loader }
  | _ => none

/-- The settings a settings file gives. -/
def Settings.ofToml? (file : Toml.Members) : Option Settings := do
  let fallback : Settings := {}
  match ← (Toml.table .header file).settings? ["state_file", "template", "build"] with
  | [stateFile, template, build] =>
    return {
      stateFile := ← Toml.textOr? fallback.stateFile stateFile
      template := ← (template.map TemplateSettings.ofToml?).getD (some {})
      build := ← (build.map BuildSettings.ofToml?).getD (some {}) }
  | _ => none

end Branding
