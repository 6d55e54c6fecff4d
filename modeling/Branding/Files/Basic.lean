import Branding.Fault
import Branding.Tree.Edit

/-!
# Files as a run works on them

The operations of a run on files say, when they fail, which file they were working on. They are
made of the questions of `Branding.Tree.Lookup` and the changes of `Branding.Tree.Edit`, and add
to them only what a run needs: a file is written together with the directory it lies in, and a
file that is not there need not be removed.

## Main definitions

* `Files` — work on a tree that may fail
* `Files.during` — work done within an activity
* `Files.ensureDirectory`, `Files.readText`, `Files.readText?`, `Files.writeText`,
  `Files.removeFile`

## Main results

* `Files.during_run`, `Files.edit_run` — an activity or a cause is added to what a change did
-/

namespace Branding

/-- Work on a tree of files that may fail. What was changed before a failure stays changed. -/
abbrev Files (α : Type) := ExceptT Fault (StateM Tree) α

namespace Files

variable {α : Type}

/-- Work that has failed. -/
def fail (cause : Cause) : Files α := throw (.of cause)

/-- Work done within an activity, which its failures name. -/
def during (activity : Activity) (work : Files α) : Files α :=
  ExceptT.adapt (Fault.during activity) work

/-- A change, whose refusal is a failure. -/
def edit (change : Edit α) : Files α :=
  ExceptT.adapt (fun r => .of (.refused r)) change

/-- An activity changes the failure and nothing else. -/
theorem during_run (activity : Activity) (work : Files α) (t : Tree) :
    during activity work t = ((work t).1.mapError (Fault.during activity), (work t).2) := rfl

theorem edit_run (change : Edit α) (t : Tree) :
    edit change t = ((change t).1.mapError fun r => .of (.refused r), (change t).2) := rfl

/-- An answer, where a refusal is a failure. -/
def ofAnswer : Except Refusal α → Files α
  | .ok a => pure a
  | .error r => fail (.refused r)

/-- A directory made with all that it lies in, unless it is there. -/
def ensureDirectory (p : Path) : Files Unit := do
  if !(← get).has p then
    during (.makingDirectory p) (edit (Edit.makeDirectories p))
  else if !(← get).isDirectory p then
    fail (.files (.obstructed p))

/-- The bytes of a file. -/
def readBytes (p : Path) : Files ByteArray := do
  during (.readingFile p) (ofAnswer ((← get).readBytes p))

/-- The text of a file, which must be text. -/
def readText (p : Path) : Files String := do
  during (.readingFile p) (ofAnswer ((← get).readText p))

/-- The text of a file, or nothing where its bytes are no text. -/
def readText? (p : Path) : Files (Option String) := do
  return String.fromUTF8? (← readBytes p)

/-- A text written to a file, in a directory that is made if it is missing. -/
def writeText (p : Path) (text : String) : Files Unit := do
  match p.parent? with
  | some parent => if parent.text ≠ "" then ensureDirectory parent
  | none => pure ()
  during (.writingFile p) (edit (Edit.writeFile p text.toUTF8))

/-- A file removed, if it is there. The answer is whether it was. -/
def removeFile (p : Path) : Files Bool := do
  if (← get).has p then
    during (.removingFile p) (edit (Edit.unlink p))
    return true
  else
    return false

end Files

end Branding
