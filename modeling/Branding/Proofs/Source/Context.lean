import Branding.Proofs.Source.Occurrences

/-!
# What a shape sees of a context

A shape reads cells, outward from an occurrence. Of the two contexts it sees hardly more than their
text: no word that it looks for before an occurrence can run into the placeholder, so an occurrence
that stands there stops the reading, whether it has been claimed or not.

The exception is a mark right beyond the separators next to the occurrence. It ends no name and
begins none, while its text would. Where no mark stands there, contexts may be exchanged for their
text, and that is what `Shape.fits` is about.

## Main definitions

* `spellBack` — the text of a context given nearest cell first
* `clearOf` — a word that cannot run into another one
* `Shape.fits` — a shape at a place in a text

## Main results

* `Shape.recognises_eq_fits` — a shape goes by the text
-/

namespace Branding

/-- The text of cells given nearest first, nearest character first. -/
def spellBack (before : List Cell) : List Char := (expand placeholder before.reverse).reverse

@[simp] theorem spellBack_nil : spellBack [] = [] := rfl

@[simp] theorem spellBack_cons (c : Cell) (before : List Cell) :
    spellBack (c :: before) = (c.expand placeholder).reverse ++ spellBack before := by
  simp [spellBack]

/-- A cell is a character, or it spells the placeholder and no shape looks beyond it. -/
theorem Cell.char_or_opaque (c : Cell) :
    (∃ a, c = .char a) ∨ c.expand placeholder = placeholder ∧ c.isBlank = false ∧
      c.endsTagSearch = false ∧ (∀ w word rest, afterChars? (w :: word) (c :: rest) = none) ∧
        ∀ a, (c == .char a) = false := by
  match c with
  | .char a => exact Or.inl ⟨a, rfl⟩
  | .name | .mark .plain | .mark .doubled =>
    exact Or.inr ⟨rfl, rfl, rfl, fun _ _ _ => rfl, fun _ => rfl⟩

theorem expand_replicate_char (target : List Char) (count : Nat) (c : Char) :
    expand target (List.replicate count (.char c)) = List.replicate count c := by
  induction count with
  | zero => rfl
  | succ count ih =>
    rw [List.replicate_succ, expand_cons, ih]
    rfl

theorem Cell.expand_mark_placeholder (m : Mark) :
    (Cell.mark m).expand placeholder = placeholder := by
  cases m <;> rfl

/-! ### Blanks and words -/

theorem dropWhile_isBlank_map_char (text : List Char) :
    (text.map Cell.char).dropWhile Cell.isBlank = (text.dropWhile isBlank).map .char :=
  List.dropWhile_map

theorem expand_dropWhile_isBlank (after : List Cell) :
    (expand placeholder after).dropWhile isBlank =
      expand placeholder (after.dropWhile Cell.isBlank) := by
  induction after with
  | nil => rfl
  | cons c after ih =>
    rcases c.char_or_opaque with ⟨a, rfl⟩ | ⟨hexpand, hblank, -⟩
    · rw [expand_cons, Cell.expand, List.singleton_append, List.dropWhile_cons,
        List.dropWhile_cons, ih]
      split <;> simp_all [Cell.isBlank, Cell.expand]
    · rw [List.dropWhile_cons, if_neg (by simp [hblank]), expand_cons, hexpand]
      rfl

theorem spellBack_dropWhile_isBlank (before : List Cell) :
    (spellBack before).dropWhile isBlank = spellBack (before.dropWhile Cell.isBlank) := by
  induction before with
  | nil => rfl
  | cons c before ih =>
    rcases c.char_or_opaque with ⟨a, rfl⟩ | ⟨hexpand, hblank, -⟩
    · rw [spellBack_cons, Cell.expand, List.reverse_singleton, List.singleton_append,
        List.dropWhile_cons, List.dropWhile_cons, ih]
      split <;> simp_all [Cell.isBlank, Cell.expand]
    · rw [List.dropWhile_cons, if_neg (by simp [hblank]), spellBack_cons, hexpand]
      rfl

/-- A word differs from another one wherever the other might begin in it. -/
def clearOf (other : List Char) : (word : List Char) → Bool
  | [] => true
  | a :: word => ((a :: word).zip other).any (fun p => p.1 != p.2) && clearOf other word

theorem append_ne_append_of_differ {word other : List Char}
    (h : (word.zip other).any (fun p => p.1 != p.2) = true) (rest text : List Char) :
    word ++ rest ≠ other ++ text := by
  induction word generalizing other with
  | nil => simp at h
  | cons a word ih =>
    cases other with
    | nil => simp at h
    | cons b other =>
      intro heq
      rw [List.cons_append, List.cons_append, List.cons.injEq] at heq
      rw [List.zip_cons_cons, List.any_cons, heq.1, bne_self_eq_false, Bool.false_or] at h
      exact ih h heq.2

/-- A word that is clear of the placeholder is found in cells where it is found in their text. -/
theorem afterChars?_spellBack {word : List Char} (hword : clearOf placeholder.reverse word = true)
    (before : List Cell) :
    afterChars? word ((spellBack before).map .char) =
      (afterChars? word before).map fun rest => (spellBack rest).map .char := by
  induction word generalizing before with
  | nil => rfl
  | cons a word ih =>
    rw [clearOf, Bool.and_eq_true] at hword
    cases before with
    | nil => rfl
    | cons c before =>
      rcases c.char_or_opaque with ⟨b, rfl⟩ | ⟨hexpand, -, -, hafter, -⟩
      · by_cases hab : a = b
        · simp [afterChars?, Cell.expand, hab, ih hword.2]
        · simp [afterChars?, Cell.expand, hab]
      · rw [hafter, Option.map_none, Option.eq_none_iff_forall_ne_some]
        rintro rest hrest
        rw [afterChars?_eq_some_iff, spellBack_cons, hexpand] at hrest
        obtain ⟨u, v, huv, hu, -⟩ := List.map_eq_append_iff.1 hrest
        have hua : u = a :: word := List.map_injective_iff.2 (fun _ _ e => Cell.char.inj e) hu
        rw [hua] at huv
        exact append_ne_append_of_differ hword.1 v (spellBack before) huv.symm

theorem beyondBlanks?_spellBack (before : List Cell) :
    beyondBlanks? ((spellBack before).map .char) =
      (beyondBlanks? before).map fun rest => (spellBack rest).map .char := by
  cases before with
  | nil => rfl
  | cons c before =>
    rcases c.char_or_opaque with ⟨a, rfl⟩ | ⟨hexpand, hblank, -⟩
    · by_cases ha : isBlank a = true
      · simp [beyondBlanks?, Cell.isBlank, Cell.expand, ha, dropWhile_isBlank_map_char,
          spellBack_dropWhile_isBlank]
      · simp [beyondBlanks?, Cell.isBlank, Cell.expand, ha]
    · rw [spellBack_cons, hexpand, beyondBlanks?, if_neg (by simp [hblank])]
      rfl

theorem beforeWord?_spellBack {word : List Char}
    (hword : clearOf placeholder.reverse word.reverse = true) (before : List Cell) :
    beforeWord? word ((spellBack before).map .char) =
      (beforeWord? word before).map fun rest => (spellBack rest).map .char := by
  rw [beforeWord?, beforeWord?, beyondBlanks?_spellBack]
  cases beyondBlanks? before with
  | none => rfl
  | some rest => exact afterChars?_spellBack hword rest

theorem startsLine_spellBack (before : List Cell) :
    startsLine ((spellBack before).map .char) = startsLine before := by
  rw [startsLine, startsLine, dropWhile_isBlank_map_char, spellBack_dropWhile_isBlank]
  cases before.dropWhile Cell.isBlank with
  | nil => rfl
  | cons c rest =>
    rcases c.char_or_opaque with ⟨a, rfl⟩ | ⟨hexpand, -, -, -, hne⟩
    · simp [Cell.expand]
    · simp only [spellBack_cons, hexpand, hne]
      rfl

theorem clearOf_referenceTag {tag : List Char} (h : tag ∈ referenceTags) :
    clearOf placeholder.reverse (tag.reverse ++ ['@']) = true := by
  revert tag
  decide

theorem afterDocTag_spellBack (before : List Cell) :
    afterDocTag ((spellBack before).map .char) = afterDocTag before := by
  induction before with
  | nil => rfl
  | cons c before ih =>
    rcases c.char_or_opaque with ⟨a, rfl⟩ | ⟨hexpand, hblank, hends, -⟩
    · have htags : (referenceTags.any fun tag =>
          (afterChars? (tag.reverse ++ ['@']) ((spellBack before).map .char)).isSome) =
          referenceTags.any fun tag => (afterChars? (tag.reverse ++ ['@']) before).isSome := by
        rw [Bool.eq_iff_iff, List.any_eq_true, List.any_eq_true]
        refine exists_congr fun tag => and_congr_right fun htag => ?_
        rw [afterChars?_spellBack (clearOf_referenceTag htag), Option.isSome_map]
      rw [spellBack_cons, Cell.expand, List.reverse_singleton, List.singleton_append,
        List.map_cons, afterDocTag, afterDocTag, htags, ih]
    · rw [spellBack_cons, hexpand, afterDocTag, hblank, hends, ← ih]
      rfl

/-! ### Shapes -/

/-- Whether a shape recognises an occurrence in a text, from the text before it and the text
after it. -/
def Shape.fits (s : Shape) (before after : List Char) : Bool :=
  s.recognises (before.reverse.map .char) (after.map .char)

namespace Shape

/-- What a shape recognises in text only. -/
theorem fits_expand (s : Shape) (before after : List Cell) :
    s.fits (expand placeholder before.reverse) (expand placeholder after) =
      s.recognises ((spellBack before).map .char) ((expand placeholder after).map .char) := rfl

theorem declaration_recognises_eq_fits (before after : List Cell) :
    declaration.recognises before after =
      declaration.fits (expand placeholder before.reverse) (expand placeholder after) := by
  rw [fits_expand, recognises, recognisesDeclaration, recognisesDeclaration,
    beforeWord?_spellBack (by decide), dropWhile_isBlank_map_char, expand_dropWhile_isBlank,
    Option.any_map]
  simp only [startsLine_spellBack]
  congr 1
  cases after.dropWhile Cell.isBlank with
  | nil => rfl
  | cons c rest =>
    match c with
    | .char a => rfl
    | .name | .mark .plain | .mark .doubled => rfl

theorem importation_recognises_eq_fits (before after : List Cell) :
    importation.recognises before after =
      importation.fits (expand placeholder before.reverse) (expand placeholder after) := by
  have hword : ∀ word : String, clearOf placeholder.reverse word.toList.reverse = true →
      ((beforeWord? word.toList ((spellBack before).map .char)).bind
        (beforeWord? "use".toList)).any startsLine =
      ((beforeWord? word.toList before).bind (beforeWord? "use".toList)).any startsLine := by
    intro word hclear
    rw [beforeWord?_spellBack hclear]
    cases beforeWord? word.toList before with
    | none => rfl
    | some rest =>
      rw [Option.map_some, Option.bind_some, Option.bind_some, beforeWord?_spellBack (by decide),
        Option.any_map]
      simp only [startsLine_spellBack]
  rw [fits_expand, recognises, recognisesImportation, recognisesImportation,
    beforeWord?_spellBack (by decide), Option.any_map]
  simp only [startsLine_spellBack, List.any_cons, List.any_nil,
    hword "function" (by decide), hword "const" (by decide)]
  congr 1
  cases after with
  | nil => rfl
  | cons c rest =>
    match c with
    | .char a => rfl
    | .name | .mark .plain | .mark .doubled => rfl

theorem recognisesDocumented_iff {before after : List Cell} :
    recognisesDocumented before after = true ↔
      ∃ b a, before = .char separator :: b ∧ after = .char separator :: a ∧
        afterDocTag b = true := by
  constructor
  · intro h
    unfold recognisesDocumented at h
    split at h
    next b before a after =>
      simp only [Bool.and_eq_true, beq_iff_eq] at h
      obtain ⟨⟨rfl, rfl⟩, h⟩ := h
      exact ⟨before, after, rfl, rfl, h⟩
    next => cases h
  · rintro ⟨b, a, rfl, rfl, h⟩
    simp [recognisesDocumented, h]

/-- As many separators on both sides, the beginning of a name after them, and no longer name before
them. -/
def Bracketed (count : Nat) (before after : List Cell) : Prop :=
  ∃ b a, before = List.replicate count (.char separator) ++ b ∧
    after = List.replicate count (.char separator) ++ a ∧
      a.head?.any Cell.startsName = true ∧ standsFree b = true

theorem recognisesQualified_iff {before after : List Cell} :
    recognisesQualified before after = true ↔ Bracketed 1 before after := by
  constructor
  · intro h
    unfold recognisesQualified at h
    split at h
    next b before a c after =>
      simp only [Bool.and_eq_true, beq_iff_eq] at h
      obtain ⟨⟨⟨rfl, rfl⟩, hc⟩, hfree⟩ := h
      exact ⟨before, c :: after, rfl, rfl, hc, hfree⟩
    next => cases h
  · rintro ⟨b, a, rfl, rfl, hname, hfree⟩
    cases a with
    | nil => cases hname
    | cons c a => simpa [List.replicate, recognisesQualified, hfree] using hname

theorem recognisesEscaped_iff {before after : List Cell} :
    recognisesEscaped before after = true ↔ Bracketed 2 before after := by
  constructor
  · intro h
    unfold recognisesEscaped at h
    split at h
    next b₁ b₂ before a₁ a₂ c after =>
      simp only [Bool.and_eq_true, beq_iff_eq] at h
      obtain ⟨⟨⟨⟨⟨rfl, rfl⟩, rfl⟩, rfl⟩, hc⟩, hfree⟩ := h
      exact ⟨before, c :: after, rfl, rfl, hc, hfree⟩
    next => cases h
  · rintro ⟨b, a, rfl, rfl, hname, hfree⟩
    cases a with
    | nil => cases hname
    | cons c a => simpa [List.replicate, recognisesEscaped, hfree] using hname

/-! ### Separators in a text come from cells of their own -/

theorem spellBack_eq_separators_append (count : Nat) {before rest : List Cell} :
    (spellBack before).map Cell.char = List.replicate count (.char separator) ++ rest ↔
      ∃ b, before = List.replicate count (.char separator) ++ b ∧
        rest = (spellBack b).map .char := by
  induction count generalizing before with
  | zero => simp [eq_comm]
  | succ count ih =>
    rw [List.replicate_succ, List.cons_append]
    cases before with
    | nil => simp
    | cons c before =>
      rcases c.char_or_opaque with ⟨a, rfl⟩ | ⟨hexpand, -, -, -, hne⟩
      · simp [Cell.expand, ih, and_assoc]
      · have hc : c ≠ .char separator := by simpa using hne separator
        have he : Cell.char 'e' ≠ .char separator := by decide
        rw [spellBack_cons, hexpand]
        simp only [List.cons_append, List.cons.injEq, hc, false_and, exists_false, iff_false]
        exact fun h => he (List.cons.inj h).1

theorem expand_eq_separators_append (count : Nat) {after rest : List Cell} :
    (expand placeholder after).map Cell.char = List.replicate count (.char separator) ++ rest ↔
      ∃ a, after = List.replicate count (.char separator) ++ a ∧
        rest = (expand placeholder a).map .char := by
  induction count generalizing after with
  | zero => simp [eq_comm]
  | succ count ih =>
    rw [List.replicate_succ, List.cons_append]
    cases after with
    | nil => simp
    | cons c after =>
      rcases c.char_or_opaque with ⟨a, rfl⟩ | ⟨hexpand, -, -, -, hne⟩
      · simp [Cell.expand, ih, and_assoc]
      · have hc : c ≠ .char separator := by simpa using hne separator
        have hW : Cell.char 'W' ≠ .char separator := by decide
        rw [expand_cons, hexpand]
        simp only [List.cons_append, List.cons.injEq, hc, false_and, exists_false, iff_false]
        exact fun h => hW (List.cons.inj h).1

theorem documented_recognises_eq_fits (before after : List Cell) :
    documented.recognises before after =
      documented.fits (expand placeholder before.reverse) (expand placeholder after) := by
  rw [fits_expand, recognises, Bool.eq_iff_iff, recognisesDocumented_iff, recognisesDocumented_iff]
  constructor
  · rintro ⟨b, a, rfl, rfl, h⟩
    exact ⟨_, _, (spellBack_eq_separators_append 1).2 ⟨b, rfl, rfl⟩,
      (expand_eq_separators_append 1).2 ⟨a, rfl, rfl⟩, (afterDocTag_spellBack b).trans h⟩
  · rintro ⟨_, _, hb, ha, h⟩
    obtain ⟨b, rfl, rfl⟩ := (spellBack_eq_separators_append 1).1 hb
    obtain ⟨a, rfl, rfl⟩ := (expand_eq_separators_append 1).1 ha
    rw [afterDocTag_spellBack] at h
    exact ⟨b, a, rfl, rfl, h⟩

/-! ### Beyond the separators -/

/-- Where no mark is nearest, a text stands free in cells where it does by itself. -/
theorem standsFree_spellBack {before : List Cell} (h : ∀ m rest, before ≠ .mark m :: rest) :
    standsFree ((spellBack before).map .char) = standsFree before := by
  match before with
  | [] => rfl
  | .char a :: rest => simp [standsFree, Cell.expand]
  | .name :: rest =>
    rw [spellBack_cons]
    rfl
  | .mark m :: rest => exact absurd rfl (h m rest)

/-- Where no mark is nearest, a name begins in cells where it does in their text. -/
theorem head_startsName_expand {after : List Cell} (h : ∀ m rest, after ≠ .mark m :: rest) :
    ((expand placeholder after).map Cell.char).head?.any Cell.startsName =
      after.head?.any Cell.startsName := by
  match after with
  | [] => rfl
  | .char a :: rest => rfl
  | .name :: rest => rfl
  | .mark m :: rest => exact absurd rfl (h m rest)

/-- No mark stands beyond as many separators on either side. -/
def MarkFree (count : Nat) (before after : List Cell) : Prop :=
  ∀ m rest, before ≠ List.replicate count (.char separator) ++ .mark m :: rest ∧
    after ≠ List.replicate count (.char separator) ++ .mark m :: rest

theorem bracketed_spell {count : Nat} {before after : List Cell}
    (h : MarkFree count before after) :
    Bracketed count ((spellBack before).map .char) ((expand placeholder after).map .char) ↔
      Bracketed count before after := by
  constructor
  · rintro ⟨_, _, hb, ha, hname, hfree⟩
    obtain ⟨b, rfl, rfl⟩ := (spellBack_eq_separators_append count).1 hb
    obtain ⟨a, rfl, rfl⟩ := (expand_eq_separators_append count).1 ha
    rw [standsFree_spellBack fun m rest hm => (h m rest).1 (by rw [hm])] at hfree
    rw [head_startsName_expand fun m rest hm => (h m rest).2 (by rw [hm])] at hname
    exact ⟨b, a, rfl, rfl, hname, hfree⟩
  · rintro ⟨b, a, rfl, rfl, hname, hfree⟩
    refine ⟨_, _, (spellBack_eq_separators_append count).2 ⟨b, rfl, rfl⟩,
      (expand_eq_separators_append count).2 ⟨a, rfl, rfl⟩, ?_, ?_⟩
    · rw [head_startsName_expand fun m rest hm => (h m rest).2 (by rw [hm]), hname]
    · rw [standsFree_spellBack fun m rest hm => (h m rest).1 (by rw [hm]), hfree]

/-- A shape of an ordinary file goes by the text, where no mark stands right beyond the
separators. -/
theorem recognises_eq_fits {s : Shape} (hs : s ∈ moduleShapes) {before after : List Cell}
    (hone : MarkFree 1 before after) (htwo : MarkFree 2 before after) :
    s.recognises before after =
      s.fits (expand placeholder before.reverse) (expand placeholder after) := by
  cases s with
  | declaration => exact declaration_recognises_eq_fits before after
  | importation => exact importation_recognises_eq_fits before after
  | qualified =>
    rw [fits_expand, recognises, Bool.eq_iff_iff, recognisesQualified_iff, recognisesQualified_iff,
      bracketed_spell hone]
  | documented => exact documented_recognises_eq_fits before after
  | escaped =>
    rw [fits_expand, recognises, Bool.eq_iff_iff, recognisesEscaped_iff, recognisesEscaped_iff,
      bracketed_spell htwo]
  | loaderLiteral => simp [moduleShapes] at hs

end Shape

end Branding
