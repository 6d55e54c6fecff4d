import Branding.Source.Cell

/-!
# The shapes a reference to the placeholder takes

Most occurrences of the placeholder in a source file are not references to the namespace: a
lookalike identifier, a word in a comment, a foreign namespace that ends in the same segment. A
*shape* says which are, from what stands before an occurrence and what follows it. Nothing is
parsed beyond that.

What stands before is given nearest cell first, so that a rule reads outward from the occurrence
in both directions.

## Why the two contexts are enough

A shape may also be read as a pattern that is sought from left to right, each match beginning where
the one before it has ended. A match could then take characters that another one needs. Here none
does, so an occurrence is recognised whatever has been matched before it, and by its own two
contexts alone. Every match has one occurrence in it.

* A declaration or an import begins with its line and holds nothing but blanks, keywords and the
  occurrence, so a line has at most one.
* A qualified reference, escaped or not, begins at the start of the text or with a character that
  continues no name. The match before it has ended with the first character of a name, or with an
  occurrence, which do continue one.
* Between a documentation tag and the reference there is no separator. The match before has ended
  with one, so the tag stands behind it.
* An assignment begins with its variable, and the match before it has ended with a semicolon.

## Main definitions

* `Shape` — the six shapes
* `Shape.recognises` — whether a shape recognises an occurrence between two contexts
* `Shape.stage` — one pass of a shape over a text: the occurrences it recognises become marks
* `stageAll` — the passes of several shapes
-/

namespace Branding

/-! ### Reading outward from an occurrence -/

namespace Cell

/-- A space or a tab. -/
def isBlank : Cell → Bool
  | .char c => Branding.isBlank c
  | _ => false

/-- Whether a qualified reference right after this cell would be the tail of a longer name. A
mark ends no name: what follows it is read as if it stood alone. -/
def continuesName : Cell → Bool
  | .char c => isNameChar c || c == separator
  | .name => true
  | .mark _ => false

/-- Whether a name can begin with this cell. -/
def startsName : Cell → Bool
  | .char c => isNameStart c
  | .name => true
  | .mark _ => false

/-- What ends the stretch in which a documentation tag is looked for. -/
def endsTagSearch : Cell → Bool
  | .char c => c == separator || c == '\r' || c == '\n'
  | _ => false

end Cell

/-- Only blanks lie between here and the start of the line. -/
def startsLine (before : List Cell) : Bool :=
  match before.dropWhile Cell.isBlank with
  | [] => true
  | c :: _ => c == .char '\n'

/-- The cells beyond at least one blank and all that follow it. -/
def beyondBlanks? : List Cell → Option (List Cell)
  | [] => none
  | c :: cells => if c.isBlank then some (cells.dropWhile Cell.isBlank) else none

/-- What stands before `word`, when the word and then blanks lead up to here. -/
def beforeWord? (word : List Char) (before : List Cell) : Option (List Cell) :=
  (beyondBlanks? before).bind (afterChars? word.reverse)

/-- The reference before which `before` ends is not the tail of a longer name. -/
def standsFree (before : List Cell) : Bool :=
  before.head?.all fun c => !c.continuesName

/-- The documentation tags whose types are references. -/
def referenceTags : List (List Char) :=
  ["see", "method", "return", "param", "var", "throws", "property", "property-read",
    "property-write", "mixin", "uses"].map String.toList

/-- A documentation tag and a blank after it come before, with no separator and no line end
between them and here. -/
def afterDocTag : (before : List Cell) → Bool
  | [] => false
  | c :: before =>
    !c.endsTagSearch &&
      (c.isBlank &&
          (referenceTags.any fun tag => (afterChars? (tag.reverse ++ ['@']) before).isSome) ||
        afterDocTag before)

/-! ### The shapes -/

/-- The ways in which a source file refers to the placeholder namespace. -/
inductive Shape where
  /-- `namespace WPLite`, at the start of a line and ended by `;`, a brace or a sub-namespace. -/
  | declaration
  /-- `use WPLite\`, also of functions and constants, at the start of a line. -/
  | importation
  /-- `\WPLite\Name`, where it is not the tail of a longer name. -/
  | qualified
  /-- `\WPLite\`, as the first qualified name after a documentation tag on its line. -/
  | documented
  /-- `\\WPLite\\Name`, the qualified reference as written inside a quoted literal. -/
  | escaped
  /-- `$prefix = 'WPLite\\';`, what a loader compares class names with. -/
  | loaderLiteral
  deriving DecidableEq, Repr

namespace Shape

/-- References inside a literal are written out with doubled separators. -/
def mark : Shape → Mark
  | .escaped | .loaderLiteral => .doubled
  | _ => .plain

/-- The declaration keyword leads the line. -/
def recognisesDeclaration (before after : List Cell) : Bool :=
  (beforeWord? "namespace".toList before).any startsLine &&
    match after.dropWhile Cell.isBlank with
    | .char c :: _ => c == ';' || c == '\x7b' || c == separator
    | _ => false

/-- The import keyword leads the line, with or without the word for what is imported. -/
def recognisesImportation (before after : List Cell) : Bool :=
  ((beforeWord? "use".toList before).any startsLine ||
      ["function", "const"].any fun word =>
        ((beforeWord? word.toList before).bind (beforeWord? "use".toList)).any startsLine) &&
    after.head? == some (.char separator)

/-- A separator that stands free comes before, a separator and a name after. -/
def recognisesQualified : (before after : List Cell) → Bool
  | .char b :: before, .char a :: c :: _ =>
    b == separator && a == separator && c.startsName && standsFree before
  | _, _ => false

/-- Separators on both sides, the first of them the first after a documentation tag. -/
def recognisesDocumented : (before after : List Cell) → Bool
  | .char b :: before, .char a :: _ => b == separator && a == separator && afterDocTag before
  | _, _ => false

/-- As `recognisesQualified`, with every separator doubled. -/
def recognisesEscaped : (before after : List Cell) → Bool
  | .char b₁ :: .char b₂ :: before, .char a₁ :: .char a₂ :: c :: _ =>
    b₁ == separator && b₂ == separator && a₁ == separator && a₂ == separator && c.startsName &&
      standsFree before
  | _, _ => false

/-- An assignment to the loader's own variable, from its name to the semicolon. -/
def recognisesLoaderLiteral : (before after : List Cell) → Bool
  | .char q :: before, .char a₁ :: .char a₂ :: .char q' :: after =>
    q == '\'' && q' == '\'' && a₁ == separator && a₂ == separator &&
      ((after.dropWhile Cell.isBlank).head? == some (.char ';')) &&
      match before.dropWhile Cell.isBlank with
      | .char e :: before =>
        e == '=' &&
          (afterChars? "$prefix".toList.reverse (before.dropWhile Cell.isBlank)).isSome
      | _ => false
  | _, _ => false

/-- Whether a shape recognises the occurrence between two contexts, the first of them given
nearest cell first. -/
def recognises : Shape → (before after : List Cell) → Bool
  | .declaration => recognisesDeclaration
  | .importation => recognisesImportation
  | .qualified => recognisesQualified
  | .documented => recognisesDocumented
  | .escaped => recognisesEscaped
  | .loaderLiteral => recognisesLoaderLiteral

/-- One pass over the cells that follow `before`: every occurrence the shape recognises becomes
its mark. -/
def stageFrom (s : Shape) (before : List Cell) : List Cell → List Cell
  | [] => []
  | c :: after =>
    (if c = .name ∧ s.recognises before after then .mark s.mark else c) ::
      s.stageFrom (c :: before) after

/-- One pass over a whole text. -/
def stage (s : Shape) (cells : List Cell) : List Cell := s.stageFrom [] cells

end Shape

/-- The passes of several shapes, in order. -/
def stageAll (shapes : List Shape) (cells : List Cell) : List Cell :=
  shapes.foldl (fun cells s => s.stage cells) cells

end Branding
