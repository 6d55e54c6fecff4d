import Branding.Run.CommandLine

/-!
# Files in and out

A run works on a tree and knows nothing of the system. So the files that it may look at are taken
up into a tree before it, and what it has changed in the tree is done to the files after it.

Taken up are the working directory, the settings and repository marks of the directories around
it, and the trees that the settings and the options name, together with what links among all
these lead to.

## Main definitions

* `Snapshot`, `Snapshot.take` — the files that a run may look at
* `Snapshot.apply` — the changes of a run, done to the files
-/

namespace Branding

/-- Files taken up into a tree. -/
structure Snapshot where
  tree : Tree := ∅
  /-- The locations that were taken up with all that lies below them. -/
  complete : List Location := []

namespace Snapshot

/-- The text of the path to a location. -/
def pathText (l : Location) : String := (Path.ofNames true l).text

/-- The location that a text without links, dots and parents names. -/
def locationOf (text : String) : Location := Path.normalNames (Path.ofString text).components

/-- An entry put in place, with the directories it lies in. -/
def plant (s : Snapshot) (l : Location) (e : Entry) : Snapshot :=
  let around := (List.range l.length).map l.take
  { s with tree := (around.foldl (fun t d => t.put d .directory) s.tree).put l e }

/-- What is at the end of a path, without links on the way and at the end. -/
def real? (text : String) : IO (Option Location) := do
  try
    return some (locationOf (← IO.FS.realPath text).toString)
  catch _ => return none

mutual

/-- What is at a location taken up. With `deep`, also what lies below, and what links lead to. -/
partial def add (deep : Bool) (s : Snapshot) (l : Location) : IO Snapshot := do
  let here := (← IO.currentDir) / pathText l
  match ← here.symlinkMetadata.toBaseIO with
  | .error _ => return s
  | .ok data =>
    match data.type with
    | .dir => do
      let mut s := s.plant l .directory
      if deep then
        for entry in ← here.readDir do
          s ← add true s (l ++ [entry.fileName])
      return s
    | .file => return s.plant l (.file (← IO.FS.readBinFile here))
    | .symlink =>
      match ← real? (pathText l) with
      | none => return s.plant l (.link (.ofNames true l))
      | some target =>
        let s := s.plant l (.link (.ofNames true target))
        if deep then addComplete s target else add false s target
    | .other => return s

/-- What is at and below a location taken up, unless it was before. -/
partial def addComplete (s : Snapshot) (l : Location) : IO Snapshot := do
  if s.complete.any (·.isPrefixOf l) then return s
  add true { s with complete := l :: s.complete } l

end

/-- What is at the end of a path taken up as a whole, and the links on the way. -/
def addPath (s : Snapshot) (p : Path) : IO Snapshot := do
  let mut s := s
  for q in p.enclosing.reverse ++ [p] do
    match q.parent?, q.fileName? with
    | some parent, some name =>
      if let some l ← real? parent.text then s ← add false s (l ++ [name])
    | _, _ => pure ()
  match ← real? p.text with
  | some l => addComplete s l
  | none => return s

/-- The options that arguments give to a command. -/
def optionsOf (arguments : List String) : Options :=
  match Invocation.ofArguments arguments with
  | .command (_ :: tokens) => .parse tokens
  | _ => []

/-- The files that a run with arguments may look at. -/
def take (s : Surroundings) (arguments : List String) : IO Tree := do
  let mut files ← addPath {} s.workingDir
  for directory in s.workingDir.enclosing do
    let l := locationOf directory.text
    files ← add false files (l ++ [Settings.fileName])
    files ← add false files (l ++ [Settings.repositoryMark])
  match RunContext.load s.home s.workingDir (optionsOf arguments) files.tree with
  | .error _ => pure ()
  | .ok c =>
    for p in [c.templateDir, c.outputDir, .ok c.stateFile] do
      if let .ok p := p then files ← addPath files p
  return files.tree

/-- The changes of a run, done to the files: first what is gone, innermost first, and then what is
new or has changed. -/
def apply (before after : Tree) : IO Unit := do
  for (l, e) in (before.below []).reverse do
    if (after.get? l).isNone then
      if e.isDirectory then IO.FS.removeDir (pathText l) else IO.FS.removeFile (pathText l)
  for (l, e) in after.below [] do
    if before.get? l ≠ some e then
      match e with
      | .directory => IO.FS.createDir (pathText l)
      | .file bytes => IO.FS.writeBinFile (pathText l) bytes
      | .link _ => pure ()

end Snapshot

end Branding
