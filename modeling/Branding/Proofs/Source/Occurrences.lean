import Branding.Source.Branded
import Mathlib.Data.List.Infix

/-!
# Where the placeholder occurs

A text without NUL characters holds no marks, and its cells are its characters with every
occurrence of the placeholder drawn together. No two occurrences overlap, since the first letter of
the placeholder is not met again in it. So a text can be taken apart from the left, one character
or one whole occurrence at a time, and that is the induction everything below goes by.

## Main definitions

* `nameCells` — a text in cells, where it holds no marks
* `graft` — a text with something put in front of its occurrences

## Main results

* `cells_eq_nameCells` — without NUL characters a text holds no marks
* `occurrence_induction` — a text from the left, by characters and occurrences
* `expand_nameCells` — cells spell the text they were read from
* `graft_placeholder_append`, `graft_cons` — grafting, by characters and occurrences
-/

namespace Branding

/-- The cells of a text that holds no marks. -/
def nameCells (text : List Char) : List Cell := absorb placeholder .name (text.map .char)

/-! ### Texts without marks -/

theorem absorb_cons (word : List Char) (cell c : Cell) (rest : List Cell) :
    absorb word cell (c :: rest) =
      if (afterChars? word (c :: rest)).isSome then
        cell :: absorb word cell (rest.drop (word.length - 1))
      else c :: absorb word cell rest := by
  rw [absorb, absorbFrom, absorbFrom_eq_drop]
  rfl

/-- A word is not absorbed where its first character does not occur. -/
theorem absorb_of_head_not_mem {w : Char} {word : List Char} (cell : Cell) {text : List Char}
    (h : w ∉ text) : absorb (w :: word) cell (text.map .char) = text.map .char := by
  induction text with
  | nil => rfl
  | cons c text ih =>
    rw [List.mem_cons, not_or] at h
    rw [List.map_cons, absorb_cons, if_neg, ih h.2]
    simp [afterChars?, h.1]

/-- Without NUL characters a text holds no marks. -/
theorem cells_eq_nameCells {text : List Char} (h : '\x00' ∉ text) :
    cells text = nameCells text := by
  have hmark : ∀ m : Mark, absorb m.written (.mark m) (text.map .char) = text.map .char := by
    intro m
    cases m <;> exact absorb_of_head_not_mem _ h
  rw [cells, hmark, hmark, nameCells]

/-! ### From the left, by characters and occurrences -/

theorem afterChars?_map_char (word text : List Char) :
    (afterChars? word (text.map .char)).isSome = true ↔ word <+: text := by
  rw [Option.isSome_iff_exists]
  simp only [afterChars?_eq_some_iff]
  constructor
  · rintro ⟨rest, h⟩
    obtain ⟨u, v, rfl, hu, -⟩ := List.map_eq_append_iff.1 h
    have : u = word := List.map_injective_iff.2 (fun _ _ e => Cell.char.inj e) hu
    exact this ▸ List.prefix_append u v
  · rintro ⟨rest, rfl⟩
    exact ⟨rest.map .char, by simp⟩

@[simp] theorem nameCells_nil : nameCells [] = [] := rfl

theorem nameCells_cons {c : Char} {text : List Char} (h : ¬ placeholder <+: c :: text) :
    nameCells (c :: text) = .char c :: nameCells text := by
  rw [nameCells, List.map_cons, absorb_cons, if_neg]
  · rfl
  · rwa [← List.map_cons (f := Cell.char), afterChars?_map_char]

theorem nameCells_placeholder_append (text : List Char) :
    nameCells (placeholder ++ text) = .name :: nameCells text := by
  rw [nameCells, show placeholder ++ text = 'W' :: ("PLite".toList ++ text) from rfl,
    List.map_cons, absorb_cons, if_pos]
  · rfl
  · rw [← List.map_cons (f := Cell.char), afterChars?_map_char]
    exact List.prefix_append placeholder text

/-- A text from the left: an occurrence of the placeholder at a time, or a character that begins
none. -/
@[elab_as_elim]
theorem occurrence_induction {motive : List Char → Prop} (nil : motive [])
    (occurrence : ∀ text, motive text → motive (placeholder ++ text))
    (cons : ∀ c text, ¬ placeholder <+: c :: text → motive text → motive (c :: text))
    (text : List Char) : motive text := by
  induction h : text.length using Nat.strong_induction_on generalizing text with
  | _ n ih =>
    subst h
    by_cases hp : placeholder <+: text
    · obtain ⟨rest, rfl⟩ := hp
      exact occurrence rest (ih _ (by simp [placeholder]; omega) rest rfl)
    · cases text with
      | nil => exact nil
      | cons c text => exact cons c text hp (ih _ (by simp) text rfl)

/-- Cells spell the text they were read from, whatever marks would stand for. -/
theorem expand_nameCells (target text : List Char) : expand target (nameCells text) = text := by
  induction text using occurrence_induction with
  | nil => rfl
  | occurrence text ih =>
    rw [nameCells_placeholder_append, expand_cons, ih]
    rfl
  | cons c text h ih =>
    rw [nameCells_cons h, expand_cons, ih]
    rfl

theorem mark_not_mem_nameCells (m : Mark) (text : List Char) : .mark m ∉ nameCells text := by
  induction text using occurrence_induction with
  | nil => simp
  | occurrence text ih => simp [nameCells_placeholder_append, ih]
  | cons c text h ih => simp [nameCells_cons h, ih]

/-! ### Something put in front -/

/-- A text with something put in front of every occurrence of the placeholder: what `front` says,
given the text before the occurrence and the text after it. -/
def graft (front : List Char → List Char → List Char) : (before text : List Char) → List Char
  | _, [] => []
  | before, c :: text =>
    (if placeholder <+: c :: text then front before ((c :: text).drop placeholder.length)
      else []) ++
      c :: graft front (before ++ [c]) text

theorem graft_cons (front : List Char → List Char → List Char) (before : List Char) {c : Char}
    {text : List Char} (h : ¬ placeholder <+: c :: text) :
    graft front before (c :: text) = c :: graft front (before ++ [c]) text := by
  rw [graft, if_neg h, List.nil_append]

/-- The first letter of the placeholder is not met again in it, so no occurrence begins inside
another. -/
theorem not_isPrefix_placeholder {c : Char} (h : c ≠ 'W') (text : List Char) :
    ¬ placeholder <+: c :: text := by
  rintro ⟨rest, hr⟩
  simp only [placeholder, List.cons_append, List.cons.injEq] at hr
  exact h hr.1.symm

theorem graft_placeholder_append (front : List Char → List Char → List Char)
    (before text : List Char) :
    graft front before (placeholder ++ text) =
      front before text ++ placeholder ++ graft front (before ++ placeholder) text := by
  have hlead : placeholder ++ text = 'W' :: 'P' :: 'L' :: 'i' :: 't' :: 'e' :: text := rfl
  rw [hlead, graft, if_pos (by rw [← hlead]; exact List.prefix_append ..)]
  iterate 5 rw [graft_cons _ _ (not_isPrefix_placeholder (by decide) _)]
  simp [placeholder]

end Branding
