import Branding.Fault
import Branding.Tree.Lookup

/-!
# Keeping the output apart from the template

A build removes its output directory before it copies the template there, so neither of the two
may lie in the other. They are compared by where they really are: a path is resolved as far as it
exists, and what does not exist yet is taken by its text.

## Main definitions

* `Tree.settled` — where a path would be
* `Tree.checkApart` — the template tree is there, and the output is apart from it
-/

namespace Branding

namespace Tree

/-- The nearest of a path and the directories it lies in that exists, resolved, and the names
from there on. A step back over a parent cannot be taken by text. -/
def settledFrom? (t : Tree) : List Path → Option (Path × List String)
  | [] => none
  | p :: outer =>
    if t.has p then some ((t.canonical? p).getD p, [])
    else do
      let name ← p.fileName?
      let (base, names) ← settledFrom? t outer
      return (base, names ++ [name])

/-- Where a path would be: resolved as far as it exists. -/
def settled (t : Tree) (p : Path) : Path :=
  match t.settledFrom? (p :: p.enclosing) with
  | some (base, names) => base.descend names
  | none => p

/-- The template tree is a directory, and neither it nor the output lies in the other. -/
def checkApart (t : Tree) (template output : Path) : Except Fault Unit :=
  if t.isDirectory template then
    let template' := ((t.canonical? template).getD template).normalize
    let output' := (t.settled output).normalize
    if output'.isWithin template' || template'.isWithin output' then
      .error (.of (.overlap output template))
    else .ok ()
  else .error (.of (.noTemplate template))

end Tree

end Branding
