import Branding.Files.Basic
import Branding.Files.Walk
import Branding.Layout
import Branding.Manifest
import Branding.Source.Basic
import Branding.Source.EntryHelper

/-!
# Branding the sources of a tree

Every source file below a root is branded: the entry helper by the rules of its own, the loader
not at all, since it is generated or branded apart, and every other file by the shapes. A file
is written only where branding changes it, and only then has a record. Files that are no text
are passed over.

A preview makes the same walk and gives the same records, and writes nothing.

## Main definitions

* `Layout.role?` — the role of a source file, if it is to be branded here
* `brandedText` — the text of a file after branding
* `Files.brandSources` — the sources of a tree branded
-/

namespace Branding

/-- The role of a source file at a path from the root. The loader has none here. -/
def Layout.role? (layout : Layout) (relative : Path) : Option FileRole :=
  if relative.agrees layout.loaderFile then none
  else if relative.agrees layout.entryHelper then some .entryHelper
  else some .normal

/-- A function of characters, applied to a text. -/
def onChars (f : List Char → List Char) (text : String) : String := .ofList (f text.toList)

/-- The text of a file after branding, by its role. -/
def brandedText (brand : Brand) : FileRole → String → String
  | .normal => onChars (brandModule brand)
  | .entryHelper => onChars (brandEntryHelper brand)
  | .loader => onChars (brandLoader brand)

namespace Files

/-- A file branded by its role. The answer is whether that changes it. -/
def brandFile (preview : Bool) (brand : Brand) (role : FileRole) (file : Path) :
    Files Bool := do
  match ← readText? file with
  | none => return false
  | some text =>
    let branded := brandedText brand role text
    if branded = text then return false
    if !preview then writeText file branded
    return true

/-- What branding does at one file of its walk from `root`, by the names that lead there. -/
def brandSource (preview : Bool) (layout : Layout) (brand : Brand) (root : Path)
    (names : List String) : Files Manifest := do
  let file := root.descend names
  let relative := Path.ofNames false names
  if !file.isSource then return []
  match layout.role? relative with
  | none => return []
  | some role =>
    if ← brandFile preview brand role file then return [⟨relative, true, role⟩]
    else return []

/-- What branding does at one visit of its walk from `root`. -/
def brandAt (preview : Bool) (layout : Layout) (brand : Brand) (root : Path) :
    Visit → Files Manifest
  | .enter names => do
    let inside := root.descend names
    match (← get).closed? inside with
    | none => return []
    | some r => refuse inside r
  | .file names => brandSource preview layout brand root names
  | .leave _ | .link _ => return []
where
  /-- The walk cannot go on. -/
  refuse (inside : Path) (r : Refusal) : Files Manifest :=
    during (.walkingTree root) (during (.visiting inside r) (fail (.refused r)))

/-- Every source file at and below a root branded. -/
def brandSources (preview : Bool) (layout : Layout) (brand : Brand) (root : Path) :
    Files Manifest := do
  match (← get).walk root with
  | .error r => brandAt.refuse root root r
  | .ok visits =>
    let records ← visits.mapM (brandAt preview layout brand root)
    return records.flatten

end Files

end Branding
