import Branding.Source.Branded
import Branding.Source.Declaration
import Branding.Text.Blank
import Branding.Text.Word

/-!
# Branding the entry helper

The entry helper is a file of plain functions, written without a namespace so that it can be
included by itself. Branding gives it the target namespace: after the shapes of an ordinary file
have been moved, a declaration is put right after the opening tag, unless the file had
one of its own. The functions have then moved, so a check whether one of them exists must ask
for its full name.

Whether the file had a declaration is asked of the text before branding: a declaration that
branding itself moves is still the file's own.

## Main definitions

* `openHeader` — the opening tag followed by a declaration of the target
* `inject?` — a text with its opening replaced by that header
* `ExistenceCheck.read?` — a check on a bare quoted name at the head of a text
* `qualifyChecks` — a text with every such check made for the name in the target namespace
* `brandEntryHelper` — the branded helper
-/

namespace Branding

/-! ### The declaration after the opening tag -/

/-- The marker every source file starts with. -/
def openingTag : List Char := "<?php".toList

/-- An opening tag and a declaration of the target namespace. -/
def openHeader (target : List Char) : List Char :=
  openingTag ++ "\n\nnamespace ".toList ++ target ++ ";\n\n".toList

/-- The text with its opening tag, and the white space after it, replaced by the header. A
text without the marker has no place for a declaration. -/
def inject? (target text : List Char) : Option (List Char) :=
  (afterWord? openingTag text).map fun rest => openHeader target ++ rest.dropWhile isWhite

/-! ### Checks whether a function exists -/

/-- A check on a bare quoted name, cut at the name. -/
structure ExistenceCheck where
  /-- The function called, the bracket and the blanks before the quote. -/
  lead : List Char
  /-- The name asked for, without its quotes. -/
  name : List Char
  /-- The blanks and the bracket after the quote. -/
  tail : List Char
  /-- What follows the check. -/
  rest : List Char
  deriving DecidableEq, Repr

namespace ExistenceCheck

/-- The function whose argument names a function. -/
def callee : List Char := "function_exists".toList

/-- A name between two quotes of one kind, and what follows. -/
def quotedName? : List Char → Option (List Char × List Char)
  | [] => none
  | q :: text =>
    if q = '\'' ∨ q = '"' then do
      let (name, rest) ← afterName? text
      let rest ← afterWord? [q] rest
      return (name, rest)
    else none

/-- A check at the head of a text. The name must be bare: one name in one pair of quotes, with
nothing but blanks between the quotes and the brackets. -/
def read? (text : List Char) : Option ExistenceCheck := do
  let afterCallee ← afterWord? callee text
  let inner ← afterWord? ['('] (afterCallee.dropWhile isBlank)
  let (name, outer) ← quotedName? (inner.dropWhile isBlank)
  let rest ← afterWord? [')'] (outer.dropWhile isBlank)
  return {
    lead := callee ++ afterCallee.takeWhile isBlank ++ '(' :: inner.takeWhile isBlank
    name
    tail := outer.takeWhile isBlank ++ [')']
    rest }

/-- The check on the same name in the target namespace. -/
def qualified (target : List Char) (check : ExistenceCheck) : List Char :=
  check.lead ++ '\'' :: target ++ separator :: check.name ++ '\'' :: check.tail

end ExistenceCheck

/-- Skip the given number of characters, then qualify the checks that follow. A check is one
only where no word character comes right before it. -/
def qualifyChecksFrom (target : List Char) : (previous : Option Char) → Nat → List Char → List Char
  | _, _, [] => []
  | _, skip + 1, c :: text => qualifyChecksFrom target (some c) skip text
  | previous, 0, c :: text =>
    match if previous.any isWord then none else ExistenceCheck.read? (c :: text) with
    | some check =>
      check.qualified target ++
        qualifyChecksFrom target (some c) (text.length - check.rest.length) text
    | none => c :: qualifyChecksFrom target (some c) 0 text

/-- A text with every existence check on a bare name made for the name in the target namespace. -/
def qualifyChecks (target text : List Char) : List Char := qualifyChecksFrom target none 0 text

/-! ### The helper -/

/-- The entry helper, branded. -/
def brandEntryHelper (b : Brand) (text : List Char) : List Char :=
  let moved := brandModule b text
  let declared :=
    if (declaredNamespace? text).isSome then moved
    else (inject? b.target moved).getD moved
  qualifyChecks b.target declared

end Branding
