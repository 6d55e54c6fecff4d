import Branding.Loader.Placement
import Branding.Run.Action
import Branding.Run.Context
import Branding.Run.Report
import Branding.State

/-!
# Branding a template in place

The older way to brand: the template tree itself is changed, its loader included. As nothing is
left of the template afterwards, the user is asked first, unless the run is forced or a preview.
Whoever declines has changed nothing; a brand that was asked for is remembered only when the run
goes on.

## Main definitions

* `Install.agreed` — whether the run may go on
* `Install.run` — a whole run, and its records unless it was declined
-/

namespace Branding

namespace Install

/-- Whether the run may go on. -/
def agreed (source : String) : Action Bool := do
  Action.write [
    .warning s!"This action will modify all PHP files in the {source}/ directory.",
    .warning "   Make sure you have committed your changes to version control.",
    .blank]
  if ← Action.ask "Do you want to continue?" then
    Action.write [.blank]
    return true
  else
    Action.write [.plain "Operation cancelled."]
    return false

/-- The sources and the loader of a tree branded in place. -/
def brandTree (preview : Bool) (layout : Layout) (brand : Brand) (root : Path) :
    Files Manifest := do
  let sources ← Files.during .brandingSources (Files.brandSources preview layout brand root)
  let loader ← Files.during .brandingLoader (Files.brandLoaderFile preview layout brand root)
  return sources ++ loader

/-- What is done once the run may go on. -/
def proceed (c : RunContext) (resolution : Resolution) (template : Path) (report : Report) :
    Action Manifest := do
  let preview := c.isPreview
  if !preview && resolution.origin == .explicit then
    Action.files (State.remember c.stateFile resolution.brand)
  Action.write [.info "Starting namespace branding...", .blank]
  let m ← Action.files (brandTree preview c.layout resolution.brand template)
  Action.write (m.map fun record => .comment s!"  ✓ {report.source}/{record.path.display}")
  Action.write (report.summary m)
  return m

/-- A whole run, and the records of what it has changed, unless it was declined. -/
def run (c : RunContext) : Action (Option Manifest) := do
  let preview := c.isPreview
  let explicit ← Action.ofAnswer c.explicitBrand?
  let resolution ← Action.files (State.resolve explicit c.stateFile false)
  let template ← Action.ofAnswer c.templateDir
  if !(← Action.query (·.isDirectory template)) then throw (.of (.noTemplate template))
  let report : Report := {
    mode := ⟨.install, preview⟩
    brand := resolution.brand.name
    target := resolution.brand.targetText
    source := c.shown template
    output := none
    loader := c.settings.build.loader
    loaderFile := c.layout.loaderFile.text }
  Action.write (banner report.title ++ report.header)
  if !preview && !c.isForced then
    if !(← agreed report.source) then return none
  return some (← proceed c resolution template report)

end Install

end Branding
