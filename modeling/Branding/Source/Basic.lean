import Branding.Path

/-!
# Source files

Only source files are branded, and a source file is known by its extension. What else a tree
holds is copied and otherwise left alone.

## Main definitions

* `sourceExtension`, `Path.isSource`
-/

namespace Branding

/-- The extension of source files, without the dot. -/
def sourceExtension : String := "php"

/-- Whether a path names a source file. -/
def Path.isSource (p : Path) : Bool := p.extension? == some sourceExtension

end Branding
