import Branding.Terminal.Style

/-!
# Lines of output

A report is made of lines, each of a kind that decides how it is shown. Apart from how it is shown,
a line has a text, which is what one reads.

## Main definitions

* `Line`, `Line.text` — a line, and what one reads
* `Line.spans` — how it is shown
* `banner` — a title in a box
-/

namespace Branding

/-- One line of output. -/
inductive Line where
  | info (text : String)
  | warning (text : String)
  | comment (text : String)
  | plain (text : String)
  /-- A label and a value that stands out. -/
  | field (label value : String)
  /-- A rule from side to side. -/
  | rule
  | blank
  deriving DecidableEq, Repr

namespace Line

/-- What one reads in a line. A rule has nothing to read. -/
def text : Line → String
  | .info text | .warning text | .comment text | .plain text => text
  | .field label value => s!"{label}: {value}"
  | .rule | .blank => ""

/-- A piece of a horizontal rule. -/
def bar (width : Nat) : String := .ofList (List.replicate width '═')

/-- How a line is shown, without its end. -/
def content : Line → List Span
  | .info text => [⟨.green, text⟩]
  | .warning text => [⟨.yellow, text⟩]
  | .comment text => [⟨.dimmed, text⟩]
  | .plain text => [⟨.plain, text⟩]
  | .field label value => [⟨.plain, label ++ ": "⟩, ⟨.strong, value⟩]
  | .rule => [⟨.green, bar 63⟩]
  | .blank => []

/-- How a line is shown. -/
def spans (line : Line) : List Span := line.content ++ [⟨.plain, "\n"⟩]

end Line

/-- A text in the middle of a field of the given width. -/
def centred (width : Nat) (text : String) : String :=
  let gap := width - text.length
  .ofList (List.replicate (gap / 2) ' ') ++ text ++ .ofList (List.replicate (gap - gap / 2) ' ')

/-- A title in a box, with blank lines around it. -/
def banner (title : String) : List Line := [
  .blank,
  .info ("╔" ++ Line.bar 62 ++ "╗"),
  .info ("║" ++ centred 62 title ++ "║"),
  .info ("╚" ++ Line.bar 62 ++ "╝"),
  .blank]

end Branding
