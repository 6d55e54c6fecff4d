/-!
# Styled text

What a run shows is a list of spans, each with a style. On a terminal without colours the styles
are left out; on one with colours a span is put between the codes of its style and a reset. Text
that holds a reset of its own would end the style too early, so the style is taken up again after
each.

## Main definitions

* `Style`, `Style.code` — the styles and what switches them on
* `Span`, `Span.render`, `renderSpans` — text with a style, with or without colours
-/

namespace Branding

/-- A style of text. -/
inductive Style where
  | plain
  /-- What goes well. -/
  | green
  /-- What needs attention. -/
  | yellow
  /-- What went wrong. -/
  | red
  /-- What is less important. -/
  | dimmed
  /-- A value or a name that stands out. -/
  | strong
  /-- A heading. -/
  | heading
  deriving DecidableEq, Repr

namespace Style

/-- What ends every style. -/
def reset : String := "\x1b[0m"

/-- What switches a style on. -/
def code : Style → String
  | .plain => ""
  | .green => "\x1b[32m"
  | .yellow => "\x1b[33m"
  | .red => "\x1b[31m"
  | .dimmed => "\x1b[2m"
  | .strong => "\x1b[1;36m"
  | .heading => "\x1b[1;33m"

/-- A text between the code of a style and a reset, the style taken up again after each reset in
the text. -/
def wrap (style : Style) (text : String) : String :=
  style.code ++ (reset ++ style.code).intercalate (text.splitOn reset) ++ reset

end Style

/-- A text with a style. -/
structure Span where
  style : Style
  text : String
  deriving DecidableEq, Repr

/-- What a span is on a terminal with or without colours. -/
def Span.render (colours : Bool) (span : Span) : String :=
  if colours && span.style != .plain then span.style.wrap span.text else span.text

/-- What spans are together on a terminal with or without colours. -/
def renderSpans (colours : Bool) (spans : List Span) : String :=
  String.join (spans.map (Span.render colours))

end Branding
