/-!
# The characters source text is read by

The template language spells its keywords, names and separators in ASCII, so the classes here
are ASCII classes: a letter with an accent is no part of a name, and a no-break space is not a
blank. The two properties that do range over all of Unicode have modules of their own,
`Branding.Text.Blank` and `Branding.Text.Word`.

## Main definitions

* `isBlank`, `isNameStart`, `isNameChar` — the three classes every rule is written with
* `isIdentifier` — one segment of a namespace
* `hexDigit?` — the value of a hexadecimal digit
* `afterWord?` — what follows a given word at the head of a text
* `afterName?` — the name at the head of a text, and what follows it
-/

namespace Branding

/-- A blank separates two words of one line: a space or a tab, never a line end. -/
def isBlank (c : Char) : Bool := c == ' ' || c == '\t'

/-- The first character of a name: an ASCII letter or an underscore. -/
def isNameStart (c : Char) : Bool := c.isAlpha || c == '_'

/-- Any later character of a name: an ASCII letter, a digit or an underscore. -/
def isNameChar (c : Char) : Bool := c.isAlphanum || c == '_'

theorem isNameChar_of_isNameStart {c : Char} (h : isNameStart c) : isNameChar c := by
  simp only [isNameStart, isNameChar, Char.isAlphanum, Bool.or_eq_true] at h ⊢
  rcases h with h | h
  · exact Or.inl (Or.inl h)
  · exact Or.inr h

/-- The value of a hexadecimal digit of either case. -/
def hexDigit? (c : Char) : Option Nat :=
  if c.isDigit then some (c.toNat - '0'.toNat)
  else if 'a' ≤ c ∧ c ≤ 'f' then some (c.toNat - 'a'.toNat + 10)
  else if 'A' ≤ c ∧ c ≤ 'F' then some (c.toNat - 'A'.toNat + 10)
  else none

/-- One segment of a namespace: a name start followed by name characters. -/
def isIdentifier : List Char → Bool
  | [] => false
  | c :: cs => isNameStart c && cs.all isNameChar

/-- The text after `word`, when the text begins with it. -/
def afterWord? : (word text : List Char) → Option (List Char)
  | [], text => some text
  | _ :: _, [] => none
  | w :: word, c :: text => if w = c then afterWord? word text else none

theorem afterWord?_eq_some_iff {word text rest : List Char} :
    afterWord? word text = some rest ↔ text = word ++ rest := by
  induction word generalizing text with
  | nil => simp [afterWord?]
  | cons w word ih =>
    cases text with
    | nil => simp [afterWord?]
    | cons c text =>
      by_cases h : w = c
      · simp [afterWord?, h, ih]
      · simp [afterWord?, h, eq_comm]

@[simp] theorem afterWord?_append (word rest : List Char) :
    afterWord? word (word ++ rest) = some rest :=
  afterWord?_eq_some_iff.2 rfl

/-- The longest name at the head of the text and the text after it, when there is one. -/
def afterName? : List Char → Option (List Char × List Char)
  | [] => none
  | c :: cs =>
    if isNameStart c then some (c :: cs.takeWhile isNameChar, cs.dropWhile isNameChar) else none

theorem append_of_afterName? {text name rest : List Char}
    (h : afterName? text = some (name, rest)) :
    name ++ rest = text := by
  cases text with
  | nil => simp [afterName?] at h
  | cons c cs =>
    by_cases hc : isNameStart c
    · simp only [afterName?, hc, if_true, Option.some.injEq, Prod.mk.injEq] at h
      obtain ⟨rfl, rfl⟩ := h
      simp
    · simp [afterName?, hc] at h

end Branding
