import Branding.Loader.Strategy
import Branding.Manifest
import Branding.Terminal.Line

/-!
# What a run reports

A run shows a header before it begins and a summary when it is done. The summary is made from the
records of the run, and a preview has the same records as the run it previews, so that the two
differ in wording only.

## Main definitions

* `RunKind`, `RunMode` — what is run, and whether it is a preview
* `Report`, `Report.header`, `Report.summary`
-/

namespace Branding

/-- What is run. -/
inductive RunKind where
  | build
  | install
  deriving DecidableEq, Repr

/-- What is run, and whether it is a preview. -/
structure RunMode where
  kind : RunKind
  preview : Bool
  deriving DecidableEq, Repr

/-- The name of a mode. -/
def RunMode.text (mode : RunMode) : String :=
  (match mode.kind with
    | .build => "build"
    | .install => "install") ++ if mode.preview then " (preview)" else ""

/-- What a header and a summary tell of a run. -/
structure Report where
  mode : RunMode
  brand : String
  /-- The target namespace. -/
  target : String
  /-- The template tree, as it is shown. -/
  source : String
  /-- The output directory of a build, as it is shown. -/
  output : Option String
  loader : LoaderStrategy
  /-- The loader of a build, from the root of its tree. -/
  loaderFile : String
  deriving DecidableEq, Repr

namespace Report

/-- The title of a run. -/
def title (r : Report) : String :=
  match r.mode.kind with
  | .build => "WPLite Framework Build Tool"
  | .install => "WPLite Framework Branding Tool"

/-- The lines before a run. -/
def header (r : Report) : List Line :=
  (if r.mode.preview then
    let what :=
      match r.mode.kind with
      | .build => "created or modified"
      | .install => "modified"
    [.warning s!"DRY RUN MODE - No files will be {what}", .blank]
  else []) ++
  [.field "Prefix" r.brand] ++
  (match r.mode.kind with
    | .build =>
      [.field "Source" s!"{r.source}/ (read-only template)"] ++
      (r.output.map fun output => Line.field "Output" s!"{output}/ (generated)").toList ++
      [.field "Namespace" r.target]
    | .install => [.field "New namespace" r.target]) ++
  [.blank]

/-- How many files a run has changed, in its own words. -/
def outcome (r : Report) (count : Nat) : List Line :=
  match r.mode with
  | ⟨.build, true⟩ => [
    .warning "DRY RUN COMPLETE - No files were created",
    .blank,
    .plain s!"Files that would be generated: {count}"]
  | ⟨.build, false⟩ => [
    .info "Build complete!",
    .blank,
    .plain s!"Files generated: {count}"] ++
    (r.output.map fun output => Line.plain s!"Output directory: {output}/").toList
  | ⟨.install, true⟩ => [
    .warning "DRY RUN COMPLETE - No files were modified",
    .blank,
    .plain s!"Files that would be modified: {count}"]
  | ⟨.install, false⟩ => [
    .info "Branding complete!",
    .blank,
    .plain s!"Files modified: {count}"]

/-- What is said of a file beside its path. -/
def note : FileRole → String
  | .entryHelper => " (helpers - namespaced)"
  | .loader => " (autoloader updated)"
  | .normal => ""

/-- The list of the files that branding in place has changed. -/
def listing (r : Report) (m : Manifest) : List Line :=
  if r.mode.kind = .install ∧ m ≠ [] then
    [.blank, .comment "Modified files:"] ++
      m.changed.map fun record =>
        .comment s!"  - {r.source}/{record.path.display}{note record.role}"
  else []

/-- What is left to do after a build. -/
def afterBuild (r : Report) : List Line :=
  let output := r.output.getD "."
  let (load, use) :=
    match r.loader with
    | .selfContained =>
      ("   1. Load the autoloader in your main plugin file:", "   2. Use the branded classes:")
    | .external =>
      ("   1. Load helpers in your main plugin file:",
        "   2. Classes are autoloaded by your project's autoloader:")
  [.blank,
    .warning "Setup:",
    .plain load,
    .blank,
    .plain s!"      require_once __DIR__ . '/{output}/{r.loaderFile}';",
    .blank,
    .plain use,
    .blank,
    .plain s!"      use {r.target}\\Facades\\App;",
    .blank,
    .plain s!"   3. Add /{output}/ to your .gitignore",
    .blank,
    .comment "   After updating the template, run `nsbrand build` again.",
    .blank]

/-- A text with its backslashes doubled. -/
def doubleBackslashes (text : String) : String :=
  .ofList (text.toList.flatMap fun c => if c = '\\' then ['\\', '\\'] else [c])

/-- What is left to do after branding in place. -/
def afterInstall (r : Report) : List Line := [
  .blank,
  .warning "Next steps:",
  .plain "   1. Update your composer.json autoload section:",
  .plain "      \"autoload\": \x7b",
  .plain "          \"psr-4\": \x7b",
  .plain s!"              \"{doubleBackslashes r.target}\\\\\": \"{r.source}/\"",
  .plain "          \x7d",
  .plain "      \x7d",
  .blank,
  .plain "   2. Run: composer dump-autoload",
  .blank,
  .plain "   3. Update your main plugin file to use the new namespace:",
  .plain s!"      use {r.target}\\Application;",
  .blank]

/-- What is left to do after a run. A preview leaves nothing to do. -/
def followUp (r : Report) : List Line :=
  match r.mode with
  | ⟨_, true⟩ => []
  | ⟨.build, false⟩ => r.afterBuild
  | ⟨.install, false⟩ => r.afterInstall

/-- The lines after a run. -/
def summary (r : Report) (m : Manifest) : List Line :=
  [.blank, .rule] ++ r.outcome m.changed.length ++ r.listing m ++ [.blank, .rule] ++ r.followUp

end Report

end Branding
