import Branding.Files.Basic
import Branding.Files.Sources
import Branding.Layout
import Branding.Loader.Text
import Branding.Manifest

/-!
# The loader of a tree

A build generates its loader: the self-contained one in the place that the layout gives, the
external one beside it, after the loader that came with the template has been removed. A record
says whether what is there differs from what is generated. In a preview the tree is the template,
whose loader has no brand yet, and so the record comes out as in the build.

Branding in place keeps the loader that is there, and brands its text.

## Main definitions

* `Layout.generated` — where a strategy puts its loader
* `Files.generateLoader` — the loader of a build
* `Files.brandLoaderFile` — the loader of a tree branded in place
-/

namespace Branding

/-- Where the loader of the external strategy is put. -/
def externalLoaderFile : String := "helpers." ++ sourceExtension

/-- Where a strategy puts its loader, from the root of the tree. -/
def Layout.generated (layout : Layout) : LoaderStrategy → Path
  | .selfContained => layout.loaderFile
  | .external => .ofString externalLoaderFile

/-- The fields of the loader texts for a brand and a layout. -/
def Layout.loaderFields (layout : Layout) (brand : Brand) : LoaderFields where
  namespaceName := brand.target
  helpersDir := layout.helpersDir.display.toList
  extension := sourceExtension.toList

namespace Files

/-- A generated text put in place, where something else is there. -/
def placeLoader (preview : Bool) (root relative : Path) (text : String) : Files FileRecord := do
  let file := root.join relative
  let changed ←
    if (← get).isFile file then do pure ((← readText? file) != some text)
    else pure true
  if changed && !preview then writeText file text
  return ⟨relative, changed, .loader⟩

/-- The loader of a build. -/
def generateLoader (preview : Bool) (layout : Layout) (brand : Brand) (strategy : LoaderStrategy)
    (root : Path) : Files Manifest := do
  if strategy = .external ∧ !preview then
    let _ ← removeFile (root.join layout.loaderFile)
  let text := String.ofList ((layout.loaderFields brand).render strategy)
  return [← placeLoader preview root (layout.generated strategy) text]

/-- The loader that a tree has, branded in place. -/
def brandLoaderFile (preview : Bool) (layout : Layout) (brand : Brand) (root : Path) :
    Files Manifest := do
  let file := root.join layout.loaderFile
  if (← get).isFile file then
    if ← brandFile preview brand .loader file then return [⟨layout.loaderFile, true, .loader⟩]
  return []

end Files

end Branding
