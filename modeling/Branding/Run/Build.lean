import Branding.Files.Clean
import Branding.Files.Copy
import Branding.Loader.Placement
import Branding.Loader.Resolution
import Branding.Run.Action
import Branding.Run.Context
import Branding.Run.Overlap
import Branding.Run.Report
import Branding.State

/-!
# Building a branded copy

A build leaves the template alone. It empties the output directory, copies the template there,
brands the copy and generates its loader. Then it checks that the loader finds what it should,
where the build has a loader of its own.

The brand is remembered as soon as it is known, before the paths are looked at. A preview
remembers nothing, and makes its records from the template, as the copy would be the same.

## Main definitions

* `Build.prepare` — the output directory emptied and filled
* `Build.run` — a whole build, and its records
-/

namespace Branding

namespace Build

/-- A path within the output, as it is shown. -/
def marked (mark output path : String) : String := s!"     {mark} {output}/{path}"

/-- The output directory emptied and filled with the template. The answer is the tree that is to
be branded. -/
def prepare (preview : Bool) (template output : Path) (shownTemplate shownOutput : String) :
    Action Path := do
  if ← Action.query (·.has output) then
    Action.write [.comment s!"  Cleaning existing {shownOutput}/ directory..."]
    let removal ← Action.files (Files.clean preview output)
    if preview && !removal.isNone then
      Action.write [.comment
        s!"     Would remove {removal.files} file(s) and {removal.directories} director(ies)"]
  Action.write [.comment s!"  Copying {shownTemplate}/ to {shownOutput}/..."]
  if preview then return template
  Action.files
    (Files.during (.copyingTemplate template output) (Files.copyDirectory template output))
  return output

/-- The warning about files that the generated loader does not find. -/
def unresolvedLines (shownOutput : String) (files : List Path) : List Line :=
  if files.isEmpty then []
  else
    [.blank,
      .warning
        "  The generated loader cannot resolve these files from their declared namespaces:"] ++
      files.map fun file => .warning (marked "-" shownOutput file.text)

/-- The sources of a tree branded and its loader generated. -/
def brandTree (preview : Bool) (layout : Layout) (brand : Brand) (strategy : LoaderStrategy)
    (root : Path) : Files Manifest := do
  let sources ← Files.during .brandingSources (Files.brandSources preview layout brand root)
  let loader ←
    Files.during .generatingLoader (Files.generateLoader preview layout brand strategy root)
  return sources ++ loader

/-- A whole build, and the records of what it has changed. -/
def run (c : RunContext) : Action Manifest := do
  let preview := c.isPreview
  let explicit ← Action.ofAnswer c.explicitBrand?
  let resolution ← Action.files (State.resolve explicit c.stateFile !preview)
  let brand := resolution.brand
  let template ← Action.ofAnswer c.templateDir
  let output ← Action.ofAnswer c.outputDir
  let strategy ← Action.ofAnswer c.strategy
  Action.ofAnswer (← Action.query (·.checkApart template output))
  let shownOutput := c.shown output
  let report : Report := {
    mode := ⟨.build, preview⟩
    brand := brand.name
    target := brand.targetText
    source := c.shown template
    output := some shownOutput
    loader := strategy
    loaderFile := (c.layout.generated strategy).text }
  Action.write (banner report.title ++ report.header)
  if resolution.saved then
    Action.write [.comment s!"  Saved configuration to {c.shown c.stateFile}"]
  Action.write [.info "Building namespaced framework...", .blank]
  let root ← prepare preview template output report.source shownOutput
  Action.write [.comment "  Transforming namespaces...", .blank]
  let m ← Action.files (brandTree preview c.layout brand strategy root)
  Action.write (m.changed.map fun record => .comment (marked "✓" shownOutput record.path.display))
  if !preview && strategy == .selfContained then
    let files ← Action.query fun t => unresolvable t ⟨brand.targetText, root⟩ m
    Action.write (unresolvedLines shownOutput files)
  Action.write (report.summary m)
  return m

end Build

end Branding
