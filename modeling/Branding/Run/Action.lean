import Branding.Files.Basic
import Branding.Terminal.Console

/-!
# What a run acts on

A run works on files and on a console. What it has done to either stays done when it fails.

## Main definitions

* `World`, `Action` — files and a console, and acting on both
* `Action.files`, `Action.write`, `Action.ask` — acting on one of them
-/

namespace Branding

/-- What a run acts on. -/
structure World where
  tree : Tree
  console : Console

/-- Files, and a console at which something has been typed. -/
def World.typed (input : ByteArray) (t : Tree) : World := ⟨t, { reply := .typed input }⟩

/-- A piece of a run, which may fail. -/
abbrev Action (α : Type) := ExceptT Fault (StateM World) α

namespace Action

variable {α : Type}

/-- Work on the files. -/
def files (work : Files α) : Action α := fun w =>
  let (result, tree) := work w.tree
  (result, { w with tree })

/-- An answer, where a fault is a failure. -/
def ofAnswer : Except Fault α → Action α
  | .ok a => pure a
  | .error fault => throw fault

/-- A question put to the files as they are now. -/
def query (question : Tree → α) : Action α := do
  return question (← get).tree

/-- Lines shown. -/
def write (lines : List Line) : Action Unit :=
  modify fun w => { w with console := w.console.writeLines lines }

/-- Spans shown. -/
def writeSpans (spans : List Span) : Action Unit :=
  modify fun w => { w with console := w.console.write spans }

/-- A line of the error output shown. -/
def writeError (text : String) : Action Unit :=
  modify fun w => { w with console := w.console.writeError [⟨.red, text⟩, ⟨.plain, "\n"⟩] }

/-- A question asked. An answer that cannot be read is a failure. -/
def ask (question : String) : Action Bool := fun w =>
  let (answer, console) := w.console.ask question
  (answer.mapError fun r => (Fault.of (.refused r)).during .readingAnswer, { w with console })

end Action

end Branding
