import Branding.Files.Basic
import Branding.Files.Walk

/-!
# Removing a directory

A directory is removed with all that lies in it, innermost first, so that every directory is
empty when its turn comes. Links are removed and what they lead to is not. In a preview the same
walk is made and counted, and nothing is removed.

## Main definitions

* `Removal` — how much was removed, or would be
* `Files.clean` — a directory removed
-/

namespace Branding

/-- How much a removal takes away. A link counts as a file. -/
structure Removal where
  files : Nat
  directories : Nat
  deriving DecidableEq, Repr

namespace Removal

/-- Nothing is taken away. -/
def none : Removal := ⟨0, 0⟩

/-- Whether nothing is taken away. -/
def isNone (removal : Removal) : Bool := removal.files == 0 && removal.directories == 0

/-- One visit of the walk counted: a directory when it is left, anything else when it is met. -/
def count (removal : Removal) : Visit → Removal
  | .enter _ => removal
  | .leave _ => { removal with directories := removal.directories + 1 }
  | .file _ | .link _ => { removal with files := removal.files + 1 }

/-- A whole walk counted. -/
def ofVisits (visits : List Visit) : Removal := visits.foldl count none

end Removal

namespace Files

/-- What a removal does at one visit of its walk from `p`. -/
def removeAt (p : Path) : Visit → Files Unit
  | .enter names => do
    let inside := p.descend names
    match (← get).closed? inside with
    | none => pure ()
    | some r => refuse inside r
  | .leave names =>
    let inside := p.descend names
    during (.removingDirectory inside) (edit (Edit.removeDirectory inside))
  | .file names | .link names =>
    let inside := p.descend names
    during (.removingFile inside) (edit (Edit.unlink inside))
where
  /-- The walk cannot go on. -/
  refuse (inside : Path) (r : Refusal) : Files Unit :=
    during (.walking p) (during (.visiting inside r) (fail (.refused r)))

/-- What a preview does at one visit: directories are gone into all the same. -/
def enterAt (p : Path) : Visit → Files Unit
  | .enter names => removeAt p (.enter names)
  | .leave _ | .file _ | .link _ => pure ()

/-- A directory removed with all that lies in it, or only counted in a preview. Where there is
nothing, there is nothing to do. -/
def clean (preview : Bool) (p : Path) : Files Removal := do
  let t ← get
  if t.has p then
    match t.walk p with
    | .error r => do
      removeAt.refuse p p r
      return Removal.none
    | .ok visits => do
      visits.forM (if preview then enterAt p else removeAt p)
      return Removal.ofVisits visits
  else
    return Removal.none

end Files

end Branding
