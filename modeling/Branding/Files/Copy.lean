import Branding.Files.Basic

/-!
# Copying a directory

What a directory holds is copied into another one. Links are followed, so the copy holds files
and directories only, and the two trees have nothing in common afterwards. What is to be copied is
listed as a whole before anything is written; then the directories are made, each before what
lies in it, and then the files are copied one by one.

A file is opened for writing, and thereby emptied, before the other is read. So a file copied
onto itself is emptied.

## Main definitions

* `Contents`, `Tree.contents` — what is to be copied, by the names that lead there
* `Files.copyDirectory` — the copy
-/

namespace Branding

/-- The directories and the files of a tree, by the names that lead to them. -/
structure Contents where
  directories : List (List String)
  files : List (List String)
  deriving DecidableEq, Repr

namespace Contents

/-- A directory and what its names hold. -/
def ofDirectory (names : List String) (inside : List Contents) : Contents :=
  ⟨names :: inside.flatMap directories, inside.flatMap files⟩

end Contents

namespace Tree

/-- What there is at and below the names from `p` on, links followed. A path has fewer names than
it has bytes, so the bound on the bytes bounds the depth too. -/
def contentsWithin (t : Tree) (p : Path) : (depth : Nat) → List String → Except Refusal Contents
  | 0, _ => .error .nameTooLong
  | depth + 1, names => do
    match ← t.find (p.descend names) with
    | (l, .directory) =>
      let inside ← (t.names l).mapM fun name => contentsWithin t p depth (names ++ [name])
      return .ofDirectory names inside
    | _ => return ⟨[], [names]⟩

/-- What there is at and below a path, links followed. -/
def contents (t : Tree) (p : Path) : Except Refusal Contents :=
  t.contentsWithin p pathBytesBound []

end Tree

namespace Files

/-- A step of a copy, where a refusal is told without what was refused. -/
def copyStep {α : Type} (change : Edit α) : Files α :=
  ExceptT.adapt (fun r => .of (.copy (.refused r))) change

/-- A directory made unless something has its name. -/
def copyDirectoryEntry (target : Path) : Edit Unit := do
  if !(← get).has target then Edit.makeDirectory target

/-- One file copied onto another, which is emptied first. -/
def copyFile (source target : Path) : Edit Unit := do
  match (← get).find source with
  | .error r => throw r
  | .ok (l, _) =>
    Edit.writeFile target .empty
    match (← get).get? l with
    | some (.file bytes) => Edit.writeFile target bytes
    | _ => pure ()

/-- All that a directory holds, copied into another one. -/
def copyInto (source target : Path) : Files Unit := do
  let t ← get
  if !t.has source then fail (.copy (.missing source))
  if !t.isDirectory source then fail (.copy (.notDirectory source))
  match t.contents source with
  | .error r => fail (.copy (.refused r))
  | .ok contents =>
    contents.directories.forM fun names => copyStep (copyDirectoryEntry (target.descend names))
    contents.files.forM fun names =>
      copyStep (copyFile (source.descend names) (target.descend names))

/-- The target made a directory, and all that the source holds copied into it. -/
def copyDirectory (source target : Path) : Files Unit := do
  ensureDirectory target
  during (.copyingTree source target) (copyInto source target)

end Files

end Branding
