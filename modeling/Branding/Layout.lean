import Branding.Path
import Branding.Settings.Basic

/-!
# The layout of a tree

Three places of a template tree are special: the entry helper, the directory of the helpers, and
the loader. Their paths are compared with those a walk comes by, which have no dots in them, so
the dots that settings may hold are dropped when the layout is made.

## Main definitions

* `Layout`, `Layout.ofSettings`
-/

namespace Branding

/-- The special places of a tree, as paths from its root. -/
structure Layout where
  entryHelper : Path
  helpersDir : Path
  loaderFile : Path
  deriving DecidableEq, Repr

namespace Layout

/-- The path a setting gives, without the dots in it. -/
def place (value : String) : Path :=
  .ofComponents ((Path.ofString value).components.filter (· != .here))

/-- The layout that settings give. -/
def ofSettings (s : TemplateSettings) : Layout where
  entryHelper := place s.entryHelper
  helpersDir := place s.helpersDir
  loaderFile := place s.loaderFile

end Layout

end Branding
