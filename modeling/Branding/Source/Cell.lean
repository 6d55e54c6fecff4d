import Branding.Brand

/-!
# Text in cells

The rules of `Branding.Source.Shape` run one after another over a text in which earlier rules
have already claimed some occurrences of the placeholder. A claimed occurrence must not be seen
again by a later rule, nor be taken for a name it happens to touch. So the rules do not run over
characters but over *cells*: a character, one whole occurrence of the placeholder, or a *mark*,
which is an occurrence some rule has claimed. A rule turns occurrences into marks and changes
nothing else, so a text keeps its cells, one for one, from the first rule to the last. Only
`expand` knows the target namespace.

## The written form of a mark

A mark has a written form, delimited by NUL characters, and a text that holds that form holds
the mark. Plain marks are read before doubled ones, and both before occurrences of the
placeholder; the order shows only where two written forms share a NUL.

## Main definitions

* `Cell`, `Mark` — what a text is made of while it is branded
* `cells` — a text in cells
* `expand` — the text that cells stand for, given a target namespace

## Main results

* `expand_append` — expansion is done cell by cell
-/

namespace Branding

/-- How a claimed occurrence is written out: as code, or as it stands inside a literal. -/
inductive Mark where
  | plain
  | doubled
  deriving DecidableEq, Repr

/-- One unit of a text that is being branded. -/
inductive Cell where
  /-- A character outside every occurrence of the placeholder. -/
  | char (c : Char)
  /-- An occurrence of the placeholder that no rule has claimed. -/
  | name
  /-- An occurrence that a rule has claimed. -/
  | mark (m : Mark)
  deriving DecidableEq, Repr

/-- The written form of a mark. -/
def Mark.written : Mark → List Char
  | .plain => '\x00' :: "NSBRAND_TARGET".toList ++ ['\x00']
  | .doubled => '\x00' :: "NSBRAND_LITERAL".toList ++ ['\x00']

/-! ### From characters to cells -/

/-- The cells after `word`, when they begin with its characters. -/
def afterChars? : (word : List Char) → List Cell → Option (List Cell)
  | [], cells => some cells
  | w :: word, .char c :: cells => if w = c then afterChars? word cells else none
  | _ :: _, _ => none

theorem afterChars?_eq_some_iff {word : List Char} {cells rest : List Cell} :
    afterChars? word cells = some rest ↔ cells = word.map Cell.char ++ rest := by
  induction word generalizing cells with
  | nil => simp [afterChars?]
  | cons w word ih =>
    match cells with
    | [] => simp [afterChars?]
    | .char c :: cells =>
      by_cases h : w = c
      · simp [afterChars?, h, ih]
      · simp [afterChars?, h, eq_comm]
    | .name :: cells => simp [afterChars?]
    | .mark m :: cells => simp [afterChars?]

/-- Skip the given number of cells, then turn the occurrences of `word` into `cell`, from the
left and without overlap. -/
def absorbFrom (word : List Char) (cell : Cell) : Nat → List Cell → List Cell
  | _, [] => []
  | skip + 1, _ :: rest => absorbFrom word cell skip rest
  | 0, c :: rest =>
    if (afterChars? word (c :: rest)).isSome then
      cell :: absorbFrom word cell (word.length - 1) rest
    else c :: absorbFrom word cell 0 rest

theorem absorbFrom_eq_drop (word : List Char) (cell : Cell) (skip : Nat) (cells : List Cell) :
    absorbFrom word cell skip cells = absorbFrom word cell 0 (cells.drop skip) := by
  induction skip generalizing cells with
  | zero => rfl
  | succ skip ih =>
    cases cells with
    | nil => rfl
    | cons c cells => simpa [absorbFrom] using ih cells

/-- Every occurrence of `word`, from the left and without overlap, turned into `cell`. -/
def absorb (word : List Char) (cell : Cell) (cells : List Cell) : List Cell :=
  absorbFrom word cell 0 cells

@[simp] theorem absorb_nil (word : List Char) (cell : Cell) : absorb word cell [] = [] := rfl

/-- A text in cells. -/
def cells (text : List Char) : List Cell :=
  absorb placeholder .name
    (absorb Mark.doubled.written (.mark .doubled)
      (absorb Mark.plain.written (.mark .plain) (text.map .char)))

/-! ### From cells to characters -/

/-- The text of one cell, given the target namespace. -/
def Cell.expand (target : List Char) : Cell → List Char
  | .char c => [c]
  | .name => placeholder
  | .mark .plain => target
  | .mark .doubled => doubleSeparators target

/-- The text that cells stand for, given the target namespace. -/
def expand (target : List Char) (cells : List Cell) : List Char :=
  cells.flatMap (Cell.expand target)

@[simp] theorem expand_nil (target : List Char) : expand target [] = [] := rfl

@[simp] theorem expand_cons (target : List Char) (c : Cell) (cells : List Cell) :
    expand target (c :: cells) = c.expand target ++ expand target cells := by
  simp [expand]

@[simp] theorem expand_append (target : List Char) (a b : List Cell) :
    expand target (a ++ b) = expand target a ++ expand target b := by
  simp [expand]

end Branding
