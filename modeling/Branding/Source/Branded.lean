import Branding.Source.Shape

/-!
# Branding a source file

A file is branded by running the shapes that apply to its kind over its cells and expanding the
marks to the target namespace. Which occurrences are marked does not depend on the target, so
two brands change a file at the same places.

## Main definitions

* `moduleShapes`, `loaderShapes` — the shapes of an ordinary file and of a loader, in order
* `brandModule`, `brandLoader` — the branded text
-/

namespace Branding

/-- The shapes an ordinary file is searched for, in the order of their passes. -/
def moduleShapes : List Shape := [.declaration, .importation, .qualified, .documented, .escaped]

/-- The shapes a loader is searched for. A loader declares no namespace and documents no type;
what it compares class names with is its own. -/
def loaderShapes : List Shape := [.importation, .qualified, .escaped, .loaderLiteral]

/-- A text with the references of the given shapes moved to a target namespace. -/
def brandShapes (shapes : List Shape) (target text : List Char) : List Char :=
  expand target (stageAll shapes (cells text))

/-- An ordinary file, branded. -/
def brandModule (b : Brand) (text : List Char) : List Char :=
  brandShapes moduleShapes b.target text

/-- An existing loader, branded in place. -/
def brandLoader (b : Brand) (text : List Char) : List Char :=
  brandShapes loaderShapes b.target text

end Branding
