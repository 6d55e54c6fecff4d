import Branding.Terminal.Line
import Branding.Text.Blank
import Branding.Tree.Refusal

/-!
# The console of a run

A run writes to its output and to its error output, and may ask a question. The answer is either
settled beforehand or typed: then the question is shown, and the first line that was typed
counts. Only a yes is a yes.

What is typed comes as bytes, and they need not be the UTF-8 form of any text. A first line that
is not cannot be read, and then there is no answer. Nothing else goes wrong here: what is written
is taken, and the end of what was typed ends a line.

## Main definitions

* `Reply` — where the answers come from
* `Console` — what was written and asked
* `firstLine?` — the text of the first line that was typed
* `saysYes` — whether a typed line says yes
* `Console.ask` — a question asked
-/

namespace Branding

/-- Where the answers to questions come from. -/
inductive Reply where
  /-- Every question has this answer. -/
  | settled (answer : Bool)
  /-- The user has typed this. -/
  | typed (input : ByteArray)

/-- What a run has written and asked, and where its answers come from. -/
structure Console where
  output : List Span := []
  errors : List Span := []
  asked : List String := []
  /-- What stood on the output when a question was first shown, the question included. -/
  prompted : Option (List Span) := none
  reply : Reply

/-- Whether a typed line says yes, in small or capital letters. -/
def saysYes (answer : String) : Bool :=
  let word := (trimWhite answer.toList).map Char.toLower
  word == ['y'] || word == ['y', 'e', 's']

/-- The bytes before the first line feed. -/
def firstLineBytes (input : ByteArray) : ByteArray :=
  (input.data.toList.takeWhile (· != 0x0A)).toByteArray

/-- The text of the first line of what was typed, if it is the UTF-8 form of one. -/
def firstLine? (input : ByteArray) : Option String := String.fromUTF8? (firstLineBytes input)

namespace Console

/-- Spans written to the output. -/
def write (spans : List Span) (c : Console) : Console := { c with output := c.output ++ spans }

/-- Spans written to the error output. -/
def writeError (spans : List Span) (c : Console) : Console := { c with errors := c.errors ++ spans }

/-- Lines written to the output. -/
def writeLines (lines : List Line) (c : Console) : Console := c.write (lines.flatMap Line.spans)

/-- A question asked, and its answer, unless what was typed cannot be read. -/
def ask (question : String) (c : Console) : Except Refusal Bool × Console :=
  let asked := { c with asked := c.asked ++ [question] }
  match c.reply with
  | .settled answer => (.ok answer, asked)
  | .typed input =>
    let shown := asked.write [⟨.yellow, question ++ " [y/N]:"⟩, ⟨.plain, " "⟩]
    (match firstLine? input with
      | some line => .ok (saysYes line)
      | none => .error .notText,
      { shown with prompted := shown.prompted.or (some shown.output) })

end Console

end Branding
