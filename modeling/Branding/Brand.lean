import Branding.Text.Char

/-!
# Brands and the namespace they make

A template tree is written in the placeholder namespace `WPLite`. Branding it with `Acme` moves
it to `Acme\WPLite`, the *target* namespace. A brand is one namespace segment and nothing else,
so that a target can stand wherever the placeholder could: no path separator, no second
segment, no dash. The type carries that fact, and everything downstream of `Brand.ofString?`
relies on it without looking again.

## Main definitions

* `placeholder` — the name every template file is written with
* `Brand` — an identifier to put in front of it
* `Brand.target`, `Brand.doubledTarget` — the target namespace, as code and as it is written
  inside a quoted literal
-/

namespace Branding

/-- The namespace a template tree is written in. -/
def placeholder : List Char := ['W', 'P', 'L', 'i', 't', 'e']

/-- Between two segments of a namespace. -/
def separator : Char := '\\'

/-- A text with every separator written twice, the form it has inside a quoted literal. -/
def doubleSeparators (text : List Char) : List Char :=
  text.flatMap fun c => if c = separator then [separator, separator] else [c]

@[simp] theorem doubleSeparators_nil : doubleSeparators [] = [] := rfl

@[simp] theorem doubleSeparators_append (a b : List Char) :
    doubleSeparators (a ++ b) = doubleSeparators a ++ doubleSeparators b := by
  simp [doubleSeparators]

/-- One namespace segment, to be put in front of the placeholder. -/
structure Brand where
  name : String
  identifier : isIdentifier name.toList = true
  deriving DecidableEq

namespace Brand

/-- The brand a text spells, if it is an identifier. -/
def ofString? (raw : String) : Option Brand :=
  if h : isIdentifier raw.toList = true then some ⟨raw, h⟩ else none

theorem ofString?_eq_some_iff {raw : String} {b : Brand} :
    ofString? raw = some b ↔ b.name = raw := by
  unfold ofString?
  split
  next h =>
    constructor
    · rintro hb
      cases hb
      rfl
    · rintro rfl
      rfl
  next h =>
    constructor
    · intro hb
      cases hb
    · rintro rfl
      exact absurd b.identifier h

/-- A brand is its name. -/
theorem eq_of_name {b b' : Brand} (h : b.name = b'.name) : b = b' := by
  cases b
  cases b'
  cases h
  rfl

/-- The target namespace: the brand, a separator, the placeholder. -/
def target (b : Brand) : List Char := b.name.toList ++ separator :: placeholder

/-- The target namespace as it is written inside a quoted literal. -/
def doubledTarget (b : Brand) : List Char := doubleSeparators b.target

/-- The target namespace as text. -/
def targetText (b : Brand) : String := String.ofList b.target

end Brand

end Branding
