import Branding.Tree.Lookup

/-!
# Changes of a tree

A change is asked for by path and can be refused. A single change that is refused has changed
nothing. `makeDirectories` is made of several, and what had been made before the refusal stays.

Only a name can be made or taken away, so a path that ends in a dot or in a parent is refused,
whatever it leads to. A slash after the last name is let pass where a directory is meant.

## Main definitions

* `Edit` — a change that may be refused
* `Edit.makeDirectory`, `Edit.makeDirectories` — a directory, alone or with all it lies in
* `Edit.writeFile` — the content of a file replaced, and the file made if there is none
* `Edit.unlink`, `Edit.removeDirectory` — one entry taken away
-/

namespace Branding

/-- A change of a tree that may be refused. -/
abbrev Edit (α : Type) := ExceptT Refusal (StateM Tree) α

namespace Edit

/-- Where a path leads in the tree as it is now. -/
def land (mode : LastName) (p : Path) : Edit Landing := do
  liftExcept ((← get).land mode p)
where
  /-- An answer that may be a refusal. -/
  liftExcept {α : Type} : Except Refusal α → Edit α
    | .ok a => pure a
    | .error r => throw r

/-! ### Making -/

/-- A directory made, where nothing has its name yet. -/
def makeDirectory (p : Path) : Edit Unit := do
  match ← land .name p with
  | .free l => modify (Tree.put · l .directory)
  | .occupied _ _ => throw .present

/-- The first path made a directory. The paths after it are those it lies in, nearest first, and
are made as far as they are missing. -/
def makeEach : List Path → Edit Unit
  | [] => pure ()
  | p :: outer =>
    if p.text = "" then pure ()
    else
      tryCatch (makeDirectory p) fun r =>
        if r = .absent then do
          makeEach outer
          tryCatch (makeDirectory p) (orThere p)
        else orThere p r
where
  /-- A directory that is there needs no making. -/
  orThere (p : Path) (r : Refusal) : Edit Unit := do
    if (← get).isDirectory p then pure () else throw r

/-- A directory made, with all that it lies in. -/
def makeDirectories (p : Path) : Edit Unit := makeEach (p :: p.enclosing)

/-- The content of a file replaced, and the file made if there is none. A link is written
through, also one that leads to nothing yet. -/
def writeFile (p : Path) (bytes : ByteArray) : Edit Unit := do
  match ← land .create p with
  | .occupied _ .directory => throw .isDirectory
  | .occupied l _ => modify (Tree.put · l (.file bytes))
  | .free l => modify (Tree.put · l (.file bytes))

/-! ### Taking away -/

/-- A file or a link taken away. What a link leads to stays. -/
def unlink (p : Path) : Edit Unit := do
  match ← land .name p with
  | .free _ => throw .absent
  | .occupied _ .directory => throw .isDirectory
  | .occupied l _ =>
    if p.segments.getLast? = some "" then throw .notDirectory else modify (Tree.drop · l)

/-- The last segment that is not empty. -/
def lastWritten? (p : Path) : Option String := p.segments.reverse.find? (· != "")

/-- An empty directory taken away. -/
def removeDirectory (p : Path) : Edit Unit := do
  match ← land .name p with
  | .free _ => throw .absent
  | .occupied l .directory =>
    if lastWritten? p = some "." then throw .invalid
    else if lastWritten? p = some ".." then throw .notEmpty
    else if l = [] then throw .busy
    else if (← get).names l = [] then modify (Tree.drop · l)
    else throw .notEmpty
  | .occupied _ _ => throw .notDirectory

end Edit

end Branding
