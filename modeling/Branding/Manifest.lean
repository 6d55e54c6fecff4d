import Branding.Path

/-!
# What a run has changed

A run gives the list of the files it has changed, in the order in which it came to them, with the
loader last. Paths start at the tree the run worked on, so the list of a preview, which works on
the template tree, can be compared with that of a build.

## Main definitions

* `FileRecord`, `FileRole` — one file, and the role it has in its tree
* `Manifest` — the records of a run, in order
-/

namespace Branding

/-- The role of a file in its tree. -/
inductive FileRole where
  | normal
  /-- The helper file without a namespace of its own. -/
  | entryHelper
  | loader
  deriving DecidableEq, Repr

/-- What became of one file. -/
structure FileRecord where
  path : Path
  changed : Bool
  role : FileRole
  deriving DecidableEq, Repr

/-- The records of a run, in order. -/
abbrev Manifest := List FileRecord

namespace Manifest

/-- The records of files that were changed. -/
def changed (m : Manifest) : Manifest := m.filter (·.changed)

/-- The records of files with one role. -/
def ofRole (m : Manifest) (role : FileRole) : Manifest :=
  m.filter (·.role == role)

theorem mem_ofRole {m : Manifest} {role : FileRole} {r : FileRecord} :
    r ∈ m.ofRole role ↔ r ∈ m ∧ r.role = role := by
  simp [ofRole]

@[simp] theorem changed_append (m n : Manifest) : (m ++ n).changed = m.changed ++ n.changed :=
  List.filter_append ..

end Manifest

end Branding
