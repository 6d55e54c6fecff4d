import Branding.Text.Char

/-!
# The namespace a file declares

A declaration is a line that begins, after blanks, with the keyword, and names a namespace. The
name may carry a leading separator, which is not part of it. A line that opens a nameless block
declares nothing, and neither does a name in a comment, since the keyword does not lead its line.

## Main definitions

* `lines` — a text cut at its line feeds
* `namespacePath?` — the longest namespace at the head of a text
* `declaredOnLine?` — the namespace one line declares
* `declaredNamespace?` — the first namespace a text declares
-/

namespace Branding

/-- The lines of a text, without the line feeds between them. -/
def lines : List Char → List (List Char)
  | [] => [[]]
  | c :: text =>
    if c = '\n' then [] :: lines text
    else match lines text with
      | [] => [[c]]
      | line :: rest => (c :: line) :: rest

theorem lines_ne_nil (text : List Char) : lines text ≠ [] := by
  cases text with
  | nil => simp [lines]
  | cons c text =>
    unfold lines
    split
    · simp
    · split <;> simp

/-- The longest namespace at the head of a text: names joined by separators, as many as follow
one another. A separator that no name follows is not part of it. -/
def namespacePath? (text : List Char) : Option (List Char) :=
  match _h : afterName? text with
  | none => none
  | some (name, []) => some name
  | some (name, c :: rest) =>
    if c = '\\' then
      match namespacePath? rest with
      | some path => some (name ++ '\\' :: path)
      | none => some name
    else some name
termination_by text.length
decreasing_by
  have := congrArg List.length (append_of_afterName? _h)
  simp only [List.length_append, List.length_cons] at this
  omega

/-- The namespace a line declares. -/
def declaredOnLine? (line : List Char) : Option (List Char) := do
  let rest ← afterWord? "namespace".toList (line.dropWhile isBlank)
  match rest with
  | [] => none
  | c :: rest =>
    if isBlank c then
      let path := rest.dropWhile isBlank
      namespacePath? ((afterWord? ['\\'] path).getD path)
    else none

/-- The namespace named by the first declaration of a text. -/
def declaredNamespace? (text : List Char) : Option (List Char) :=
  (lines text).findSome? declaredOnLine?

end Branding
