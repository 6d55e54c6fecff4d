import Branding.Proofs.Source.Rebranding
import Branding.Source.Declaration

/-!
# What a branded file declares

A file that declares a namespace below the placeholder declares it below the target once it is
branded, and the segments after the placeholder are what they were. The lines before its declaration
declare nothing still: what is written for an occurrence begins like a name and has a capital in it,
so no keyword comes about, and no name begins where none did.

There is one exception. A segment right behind the placeholder that repeats it, with another segment
after it, is found by the pass for qualified references, since a mark ends no name. It gets a brand
of its own.

## Main definitions

* `subspace` — segments behind a namespace
* `Spells` — what marks may stand for, without a difference to what a line declares

## Main results

* `declaredNamespace?_expand_eq_none_iff` — marks make no declaration
-/

namespace Branding

/-! ### Lines -/

theorem lines_append_newline (text rest : List Char) :
    lines (text ++ '\n' :: rest) = lines text ++ lines rest := by
  induction text with
  | nil => simp [lines]
  | cons c text ih =>
    rw [List.cons_append, lines, lines, ih]
    by_cases hc : c = '\n'
    · rw [if_pos hc, if_pos hc, List.cons_append]
    · rw [if_neg hc, if_neg hc]
      cases hlines : lines text with
      | nil => exact absurd hlines (lines_ne_nil text)
      | cons line more => rfl

theorem lines_of_not_mem {text : List Char} (h : '\n' ∉ text) : lines text = [text] := by
  induction text with
  | nil => rfl
  | cons c text ih =>
    rw [List.mem_cons, not_or] at h
    rw [lines, if_neg (Ne.symm h.1), ih h.2]

/-- The first declaration of a text is that of its first lines, or else that of the others. -/
theorem declaredNamespace?_append_newline (text rest : List Char) :
    declaredNamespace? (text ++ '\n' :: rest) =
      (declaredNamespace? text).or (declaredNamespace? rest) := by
  rw [declaredNamespace?, lines_append_newline, List.findSome?_append]
  rfl

theorem declaredNamespace?_of_not_mem {line : List Char} (h : '\n' ∉ line) :
    declaredNamespace? line = declaredOnLine? line := by
  rw [declaredNamespace?, lines_of_not_mem h, List.findSome?_cons]
  cases declaredOnLine? line <;> rfl

/-- A line goes up to the next line feed. -/
theorem exists_line_append (text : List Char) :
    ∃ line rest, '\n' ∉ line ∧ text = line ++ rest ∧ (rest = [] ∨ ∃ more, rest = '\n' :: more) := by
  by_cases h : '\n' ∈ text
  · obtain ⟨line, more, rfl, hline⟩ := List.eq_append_cons_of_mem h
    exact ⟨line, _, hline, rfl, Or.inr ⟨more, rfl⟩⟩
  · exact ⟨text, [], h, (List.append_nil text).symm, Or.inl rfl⟩

/-! ### Namespaces at the head of a text -/

theorem afterName?_append {name rest : List Char} (hname : isIdentifier name = true)
    (hrest : ∀ c ∈ rest.head?, isNameChar c = false) :
    afterName? (name ++ rest) = some (name, rest) := by
  cases name with
  | nil => cases hname
  | cons c name =>
    rw [isIdentifier, Bool.and_eq_true, List.all_eq_true] at hname
    rw [List.cons_append, afterName?, if_pos hname.1, List.takeWhile_append_of_pos hname.2,
      List.dropWhile_append_of_pos hname.2]
    cases rest with
    | nil => simp
    | cons d rest =>
      have hd : ¬ isNameChar d = true := by simpa using hrest d rfl
      rw [List.takeWhile_cons, if_neg hd, List.dropWhile_cons, if_neg hd, List.append_nil]

/-- A namespace begins where a name does. -/
theorem isSome_namespacePath? (text : List Char) :
    (namespacePath? text).isSome = text.head?.any isNameStart := by
  unfold namespacePath?
  cases text with
  | nil => rfl
  | cons c text =>
    by_cases hc : isNameStart c = true
    · have hname : afterName? (c :: text) =
          some (c :: text.takeWhile isNameChar, text.dropWhile isNameChar) := by
        rw [afterName?, if_pos hc]
      split
      next h => rw [hname] at h; cases h
      next => simp [hc]
      next =>
        split
        · split <;> simp [hc]
        · simp [hc]
    · have hname : afterName? (c :: text) = none := by rw [afterName?, if_neg hc]
      split
      next => simpa using hc
      next h => rw [hname] at h; cases h
      next h => rw [hname] at h; cases h

/-- Segments behind a namespace, each with a separator in front. -/
def subspace (segments : List (List Char)) : List Char := segments.flatMap (separator :: ·)

@[simp] theorem subspace_nil : subspace [] = [] := rfl

@[simp] theorem subspace_cons (segment : List Char) (segments : List (List Char)) :
    subspace (segment :: segments) = separator :: segment ++ subspace segments := rfl

/-- The whole of a namespace is read, up to what belongs to no name. -/
theorem namespacePath?_append {name : List Char} (hname : isIdentifier name = true)
    {segments : List (List Char)} (hsegments : ∀ s ∈ segments, isIdentifier s = true)
    {c : Char} (hc : isNameChar c = false) (hsep : c ≠ separator) (rest : List Char) :
    namespacePath? (name ++ subspace segments ++ c :: rest) = some (name ++ subspace segments) := by
  induction segments generalizing name with
  | nil =>
    have hafter : afterName? (name ++ c :: rest) = some (name, c :: rest) :=
      afterName?_append hname (by simpa using hc)
    rw [subspace_nil, List.append_nil, namespacePath?]
    split
    next h => rw [hafter] at h; cases h
    next h => rw [hafter] at h; cases h
    next h =>
      rw [hafter] at h
      cases h
      exact if_neg hsep
  | cons segment segments ih =>
    rw [List.forall_mem_cons] at hsegments
    have hafter : afterName? (name ++ separator :: (segment ++ subspace segments ++ c :: rest)) =
        some (name, separator :: (segment ++ subspace segments ++ c :: rest)) :=
      afterName?_append hname (by simp; decide)
    have htext : name ++ subspace (segment :: segments) ++ c :: rest =
        name ++ separator :: (segment ++ subspace segments ++ c :: rest) := by simp
    rw [htext, namespacePath?]
    split
    next h => rw [hafter] at h; cases h
    next h => rw [hafter] at h; cases h
    next h =>
      rw [hafter] at h
      cases h
      rw [if_pos (show separator = '\\' from rfl), ih hsegments.1 hsegments.2]
      simp [separator]

/-- A line declares a namespace where a name, with or without a separator in front, follows the
keyword and blanks. -/
theorem isSome_declaredOnLine?_iff {line : List Char} :
    (declaredOnLine? line).isSome = true ↔
      ∃ c rest, line.dropWhile isBlank = "namespace".toList ++ c :: rest ∧ isBlank c = true ∧
        ((afterWord? [separator] (rest.dropWhile isBlank)).getD
          (rest.dropWhile isBlank)).head?.any isNameStart = true := by
  rw [declaredOnLine?]
  simp only [← afterWord?_eq_some_iff]
  cases afterWord? "namespace".toList (line.dropWhile isBlank) with
  | none => simp
  | some beyond =>
    cases beyond with
    | nil => simp
    | cons c rest =>
      by_cases hc : isBlank c = true
      · rw [Option.bind_eq_bind, Option.bind_some]
        simp only [if_pos hc, isSome_namespacePath?, Option.some.injEq, List.cons.injEq]
        constructor
        · exact fun h => ⟨c, rest, ⟨rfl, rfl⟩, hc, h⟩
        · rintro ⟨_, _, ⟨rfl, rfl⟩, -, h⟩
          exact h
      · rw [Option.bind_eq_bind, Option.bind_some]
        simp only [if_neg hc, Option.some.injEq, List.cons.injEq]
        refine iff_of_false (by simp) ?_
        rintro ⟨_, _, ⟨rfl, rfl⟩, hc', -⟩
        exact hc hc'

/-! ### What a line declares shows in its cells -/

/-- What an occurrence is written as begins like a name and has the capital of the placeholder in
it, and no blank and no line feed. -/
structure Spells (target : List Char) (c : Cell) : Prop where
  exists_cons : ∃ first rest, c.expand target = first :: rest ∧ isNameStart first = true
  capital_mem : 'W' ∈ c.expand target
  isBlank_eq_false : ∀ a ∈ c.expand target, isBlank a = false
  newline_not_mem : '\n' ∉ c.expand target

theorem isBlank_eq_false_of_isNameChar {a : Char} (h : isNameChar a = true) : isBlank a = false :=
  Cell.isBlank_eq_false_of_isNamePart (c := .char a) h

theorem isNameChar_of_mem_placeholder {a : Char} (h : a ∈ placeholder) : isNameChar a = true :=
  List.all_eq_true.1 (by decide : placeholder.all isNameChar = true) a h

theorem spells_placeholder {c : Cell} (hc : ∀ a, c ≠ .char a) : Spells placeholder c := by
  have hexpand : c.expand placeholder = placeholder := by
    rcases c.char_or_opaque with ⟨a, rfl⟩ | h
    · exact absurd rfl (hc a)
    · exact h.1
  constructor <;> rw [hexpand]
  · exact ⟨'W', _, rfl, by decide⟩
  · simp [placeholder]
  · simp [placeholder, isBlank]
  · simp [placeholder]

theorem Brand.spells_target (b : Brand) {c : Cell} (hc : ∀ a, c ≠ .char a) :
    Spells b.target c := by
  match c with
  | .char a => exact absurd rfl (hc a)
  | .name =>
    have h := spells_placeholder (c := .name) nofun
    exact ⟨h.exists_cons, h.capital_mem, h.isBlank_eq_false, h.newline_not_mem⟩
  | .mark m =>
    have hmem : ∀ a ∈ (Cell.mark m).expand b.target, isNameChar a = true ∨ a = separator := by
      intro a ha
      rw [b.expand_mark, b.inFront_eq, List.mem_append, List.mem_append] at ha
      rcases ha with (ha | ha) | ha
      · exact Or.inl (b.isNameChar_of_mem ha)
      · exact Or.inr (List.eq_of_mem_replicate ha)
      · exact Or.inl (isNameChar_of_mem_placeholder ha)
    constructor
    · obtain ⟨first, rest, hfirst, hstart⟩ := b.exists_name_eq_cons
      exact ⟨first, _, by rw [b.expand_mark, b.inFront_eq, hfirst]; rfl, hstart⟩
    · rw [b.expand_mark]
      exact List.mem_append_right _ (by decide)
    · intro a ha
      rcases hmem a ha with h | rfl
      · exact isBlank_eq_false_of_isNameChar h
      · decide
    · intro h
      exact absurd (hmem _ h) (by decide)

/-- Whether a name can begin with a cell, be it a mark. -/
def Cell.opensName : Cell → Bool
  | .char a => isNameStart a
  | _ => true

/-- The cells of a line that declares a namespace. -/
def Declares (line : List Cell) : Prop :=
  ∃ c rest, line.dropWhile Cell.isBlank = "namespace".toList.map .char ++ .char c :: rest ∧
    isBlank c = true ∧
      ((afterChars? [separator] (rest.dropWhile Cell.isBlank)).getD
        (rest.dropWhile Cell.isBlank)).head?.any Cell.opensName = true

section Spelling

variable {target : List Char} (hspells : ∀ c : Cell, (∀ a, c ≠ .char a) → Spells target c)

include hspells

theorem dropWhile_isBlank_expand (cells : List Cell) :
    (expand target cells).dropWhile isBlank = expand target (cells.dropWhile Cell.isBlank) := by
  induction cells with
  | nil => rfl
  | cons c cells ih =>
    rcases c.char_or_opaque with ⟨a, rfl⟩ | ⟨-, hblank, -, -, hne⟩
    · rw [expand_cons, Cell.expand, List.singleton_append, List.dropWhile_cons,
        List.dropWhile_cons, ih]
      split <;> simp_all [Cell.isBlank, Cell.expand]
    · have h := hspells c (by simpa using hne)
      obtain ⟨first, rest, hfirst, -⟩ := h.exists_cons
      have hnot : isBlank first = false := h.isBlank_eq_false first (by simp [hfirst])
      rw [List.dropWhile_cons, if_neg (by simp [hblank]), expand_cons, hfirst,
        List.cons_append, List.dropWhile_cons, if_neg (by simp [hnot])]

/-- A word without the capital of the placeholder and a blank after it stand in a text where they
stand in its cells. -/
theorem expand_eq_append_blank {word : List Char} (hword : 'W' ∉ word) {c : Char}
    (hc : isBlank c = true) {cells : List Cell} {text : List Char} :
    expand target cells = word ++ c :: text ↔
      ∃ rest, cells = word.map .char ++ .char c :: rest ∧ text = expand target rest := by
  constructor
  · intro h
    induction word generalizing cells with
    | nil =>
      cases cells with
      | nil => cases h
      | cons d cells =>
        rcases d.char_or_opaque with ⟨a, rfl⟩ | ⟨-, -, -, -, hne⟩
        · obtain ⟨rfl, rfl⟩ := List.cons.inj h
          exact ⟨cells, rfl, rfl⟩
        · obtain ⟨first, rest, hfirst, -⟩ := (hspells d (by simpa using hne)).exists_cons
          have hnot := (hspells d (by simpa using hne)).isBlank_eq_false first (by simp [hfirst])
          rw [expand_cons, hfirst] at h
          obtain ⟨rfl, -⟩ := List.cons.inj h
          rw [hc] at hnot
          cases hnot
    | cons w word ih =>
      cases cells with
      | nil => cases h
      | cons d cells =>
        rcases d.char_or_opaque with ⟨a, rfl⟩ | ⟨-, -, -, -, hne⟩
        · obtain ⟨rfl, htail⟩ := List.cons.inj h
          obtain ⟨rest, rfl, rfl⟩ := ih (fun hmem => hword (List.mem_cons_of_mem _ hmem)) htail
          exact ⟨rest, rfl, rfl⟩
        · -- the word would have to end inside of what the occurrence is written as
          have hd := hspells d (by simpa using hne)
          rw [expand_cons] at h
          rcases List.append_eq_append_iff.1 h with ⟨part, hpart, -⟩ | ⟨part, hpart, hrest⟩
          · exact absurd (hpart ▸ List.mem_append_left _ hd.capital_mem) hword
          · cases part with
            | nil =>
              rw [List.append_nil] at hpart
              exact absurd (hpart ▸ hd.capital_mem) hword
            | cons b part =>
              obtain ⟨rfl, -⟩ := List.cons.inj hrest
              have hnot := hd.isBlank_eq_false c (by simp [hpart])
              rw [hc] at hnot
              cases hnot
  · rintro ⟨rest, rfl, rfl⟩
    have hchars : ∀ word : List Char, expand target (word.map .char) = word := by
      intro word
      induction word with
      | nil => rfl
      | cons w word ih => rw [List.map_cons, expand_cons, ih]; rfl
    rw [expand_append, hchars, expand_cons]
    rfl

theorem getD_afterWord?_expand (cells : List Cell) :
    (afterWord? [separator] (expand target cells)).getD (expand target cells) =
      expand target ((afterChars? [separator] cells).getD cells) := by
  cases cells with
  | nil => rfl
  | cons c cells =>
    rcases c.char_or_opaque with ⟨a, rfl⟩ | ⟨-, -, -, hafter, hne⟩
    · by_cases ha : separator = a
      · simp [afterWord?, afterChars?, Cell.expand, ha]
      · simp [afterWord?, afterChars?, Cell.expand, ha]
    · obtain ⟨first, rest, hfirst, hstart⟩ := (hspells c (by simpa using hne)).exists_cons
      have hfirst' : separator ≠ first := by
        rintro rfl
        exact absurd hstart (by decide)
      rw [hafter, Option.getD_none, expand_cons, hfirst, List.cons_append, afterWord?,
        if_neg hfirst', Option.getD_none]

theorem head?_expand (cells : List Cell) :
    (expand target cells).head?.any isNameStart = cells.head?.any Cell.opensName := by
  cases cells with
  | nil => rfl
  | cons c cells =>
    rcases c.char_or_opaque with ⟨a, rfl⟩ | ⟨-, -, -, -, hne⟩
    · rfl
    · obtain ⟨first, rest, hfirst, hstart⟩ := (hspells c (by simpa using hne)).exists_cons
      have hopens : c.opensName = true := by
        cases c with
        | char a => exact absurd (hne a) (by simp)
        | name | mark m => rfl
      simp [hfirst, hstart, hopens]

theorem isSome_declaredOnLine?_expand (line : List Cell) :
    (declaredOnLine? (expand target line)).isSome = true ↔ Declares line := by
  rw [isSome_declaredOnLine?_iff, Declares, dropWhile_isBlank_expand hspells]
  constructor
  · rintro ⟨c, text, htext, hc, hopens⟩
    obtain ⟨rest, hrest, rfl⟩ := (expand_eq_append_blank hspells (by decide) hc).1 htext
    rw [dropWhile_isBlank_expand hspells, getD_afterWord?_expand hspells,
      head?_expand hspells] at hopens
    exact ⟨c, rest, hrest, hc, hopens⟩
  · rintro ⟨c, rest, hrest, hc, hopens⟩
    refine ⟨c, expand target rest, ?_, hc, ?_⟩
    · exact (expand_eq_append_blank hspells (by decide) hc).2 ⟨rest, hrest, rfl⟩
    · rwa [dropWhile_isBlank_expand hspells, getD_afterWord?_expand hspells, head?_expand hspells]

theorem newline_not_mem_expand {cells : List Cell} (h : .char '\n' ∉ cells) :
    '\n' ∉ expand target cells := by
  rw [expand, List.mem_flatMap]
  rintro ⟨c, hc, hmem⟩
  rcases c.char_or_opaque with ⟨a, rfl⟩ | ⟨-, -, -, -, hne⟩
  · obtain rfl : '\n' = a := by simpa [Cell.expand] using hmem
    exact h hc
  · exact (hspells c (by simpa using hne)).newline_not_mem hmem

theorem declaredNamespace?_line_eq_none_iff {line : List Cell} (h : .char '\n' ∉ line) :
    declaredNamespace? (expand target line) = none ↔ ¬ Declares line := by
  rw [declaredNamespace?_of_not_mem (newline_not_mem_expand hspells h),
    ← isSome_declaredOnLine?_expand hspells, Option.not_isSome_iff_eq_none]

/-- What marks stand for makes no declaration, and takes none away. -/
theorem declaredNamespace?_expand_eq_none_iff (cells : List Cell) :
    declaredNamespace? (expand target cells) = none ↔
      declaredNamespace? (expand placeholder cells) = none := by
  induction hlength : cells.length using Nat.strong_induction_on generalizing cells with
  | _ n ih =>
    subst hlength
    by_cases h : .char '\n' ∈ cells
    · obtain ⟨line, more, rfl, hline⟩ := List.eq_append_cons_of_mem h
      have hsplit : ∀ target : List Char, expand target (line ++ .char '\n' :: more) =
          expand target line ++ '\n' :: expand target more := by
        intro target
        rw [expand_append, expand_cons]
        rfl
      rw [hsplit, hsplit, declaredNamespace?_append_newline, declaredNamespace?_append_newline,
        Option.or_eq_none_iff, Option.or_eq_none_iff,
        declaredNamespace?_line_eq_none_iff hspells hline,
        declaredNamespace?_line_eq_none_iff (fun _ => spells_placeholder) hline,
        ih more.length (by simp; omega) more rfl]
    · rw [declaredNamespace?_line_eq_none_iff hspells h,
        declaredNamespace?_line_eq_none_iff (fun _ => spells_placeholder) h]

end Spelling

end Branding
