import Branding.Proofs.Source.Context
import Mathlib.Data.List.TakeWhile

/-!
# The places at which the placeholder is a reference

What a shape looks for can be said of the text alone: a place is given by all that stands before it
and all that stands after it, both in reading order. Each kind of reference is one predicate on
such a place, and each comes with the lemma that its shape fits exactly there.

## Main definitions

* `LineLed` — the line up to a place consists of the given words
* `DeclarationSite`, `ImportSite`, `QualifiedSite`, `DocumentedSite`, `EscapedSite`
* `PlainSite` — the places where the target stands as code

## Main results

* `fits_declaration_iff` and its like — a shape fits at its places and nowhere else
-/

namespace Branding

/-- A text of spaces and tabs. -/
def Blanks (text : List Char) : Prop := ∀ c ∈ text, isBlank c = true

/-- A line starts where the text ends. -/
def EndsAtLineStart (text : List Char) : Prop := text = [] ∨ ∃ lead, text = lead ++ ['\n']

/-- The line at the end of the text consists of the given words, the last of them first, each with
blanks after it and the whole with or without blanks in front. -/
def LineLed : (words : List String) → (text : List Char) → Prop
  | [], text => ∃ lead indent, EndsAtLineStart lead ∧ Blanks indent ∧ text = lead ++ indent
  | word :: words, text => ∃ lead gap, LineLed words lead ∧ gap ≠ [] ∧ Blanks gap ∧
      text = lead ++ word.toList ++ gap

/-- The end of the text is no part of a longer name. -/
def EndsFree (text : List Char) : Prop :=
  EndsAtLineStart text ∨
    ∃ lead c, text = lead ++ [c] ∧ isNameChar c = false ∧ c ≠ separator

/-- The keyword leads the line, and a semicolon, a brace or a sub-namespace follows. -/
def DeclarationSite (before after : List Char) : Prop :=
  LineLed ["namespace"] before ∧
    ∃ gap c rest, Blanks gap ∧ (c = ';' ∨ c = '\x7b' ∨ c = separator) ∧ after = gap ++ c :: rest

/-- The keyword leads the line, with or without the word for what is imported, and a separator
follows. -/
def ImportSite (before after : List Char) : Prop :=
  (LineLed ["use"] before ∨ LineLed ["function", "use"] before ∨ LineLed ["const", "use"] before) ∧
    ∃ rest, after = separator :: rest

/-- As many separators on both sides, a name after them and no longer name before them. -/
def BracketedSite (count : Nat) (before after : List Char) : Prop :=
  ∃ lead c rest, before = lead ++ List.replicate count separator ∧ EndsFree lead ∧
    after = List.replicate count separator ++ c :: rest ∧ isNameStart c = true

/-- One separator on both sides, a name after it and no longer name before it. -/
def QualifiedSite : (before after : List Char) → Prop := BracketedSite 1

/-- The same with every separator doubled. -/
def EscapedSite : (before after : List Char) → Prop := BracketedSite 2

/-- Separators on both sides, the first of them the first after a documentation tag and blanks, on
the line of the tag. -/
def DocumentedSite (before after : List Char) : Prop :=
  (∃ lead tag gap run, tag ∈ referenceTags ∧ gap ≠ [] ∧ Blanks gap ∧
    (∀ c ∈ run, c ≠ separator ∧ c ≠ '\r' ∧ c ≠ '\n') ∧
      before = lead ++ '@' :: tag ++ gap ++ run ++ [separator]) ∧
    ∃ rest, after = separator :: rest

/-- The places where the placeholder is a reference as code has it. -/
def PlainSite (before after : List Char) : Prop :=
  DeclarationSite before after ∨ ImportSite before after ∨ QualifiedSite before after ∨
    DocumentedSite before after

/-! ### Blanks, words and lines -/

theorem Blanks.reverse {text : List Char} (h : Blanks text) : Blanks text.reverse := by
  intro c hc
  exact h c (List.mem_reverse.1 hc)

theorem dropWhile_blanks_append {gap text : List Char} (hgap : Blanks gap)
    (htext : ∀ c ∈ text.head?, isBlank c = false) :
    (gap ++ text).dropWhile isBlank = text := by
  rw [List.dropWhile_append_of_pos hgap]
  cases text with
  | nil => rfl
  | cons c text => rw [List.dropWhile_cons, if_neg (by simpa using htext c rfl)]

/-- A text is blanks and then something else. -/
theorem exists_blanks_append (text : List Char) :
    ∃ gap rest, Blanks gap ∧ (∀ c ∈ rest.head?, isBlank c = false) ∧ text = gap ++ rest := by
  refine ⟨text.takeWhile isBlank, text.dropWhile isBlank, ?_, ?_, ?_⟩
  · intro c hc
    exact List.mem_takeWhile_imp hc
  · intro c hc
    have h := List.head?_dropWhile_not isBlank text
    rwa [Option.mem_def.1 hc] at h
  · rw [List.takeWhile_append_dropWhile]

theorem startsLine_iff {text : List Char} :
    startsLine (text.reverse.map .char) = true ↔ LineLed [] text := by
  rw [startsLine, dropWhile_isBlank_map_char]
  constructor
  · intro h
    obtain ⟨gap, rest, hgap, hrest, hsplit⟩ := exists_blanks_append text.reverse
    rw [hsplit, dropWhile_blanks_append hgap hrest] at h
    refine ⟨rest.reverse, gap.reverse, ?_, hgap.reverse, ?_⟩
    · cases rest with
      | nil => exact Or.inl rfl
      | cons c rest =>
        have hc : c = '\n' := by simpa using h
        exact Or.inr ⟨rest.reverse, by simp [hc]⟩
    · rw [← List.reverse_append, ← hsplit, List.reverse_reverse]
  · rintro ⟨lead, indent, hlead, hindent, rfl⟩
    rw [List.reverse_append]
    rcases hlead with rfl | ⟨lead, rfl⟩
    · rw [dropWhile_blanks_append hindent.reverse (by simp)]
      rfl
    · rw [dropWhile_blanks_append hindent.reverse (by simp; decide)]
      simp

theorem beyondBlanks?_blanks_append {gap text : List Char} (hne : gap ≠ []) (hgap : Blanks gap)
    (htext : ∀ c ∈ text.head?, isBlank c = false) :
    beyondBlanks? ((gap ++ text).map .char) = some (text.map .char) := by
  cases gap with
  | nil => exact absurd rfl hne
  | cons c gap =>
    have hc : (Cell.char c).isBlank = true := hgap c (by simp)
    rw [List.cons_append, List.map_cons, beyondBlanks?, if_pos hc, dropWhile_isBlank_map_char,
      dropWhile_blanks_append (fun c hc => hgap c (List.mem_cons_of_mem _ hc)) htext]

theorem beyondBlanks?_of_not_blank {text : List Char} (h : ∀ c ∈ text.head?, isBlank c = false) :
    beyondBlanks? (text.map .char) = none := by
  cases text with
  | nil => rfl
  | cons c text =>
    have hc : (Cell.char c).isBlank = false := h c rfl
    rw [List.map_cons, beyondBlanks?, if_neg (by simp [hc])]

/-- A word found before a place, blanks between. -/
theorem beforeWord?_eq_some_iff {word : String}
    (hword : word.toList.getLast?.any (!isBlank ·) = true) {text : List Char} {rest : List Cell} :
    beforeWord? word.toList (text.reverse.map .char) = some rest ↔
      ∃ lead gap, gap ≠ [] ∧ Blanks gap ∧ text = lead ++ word.toList ++ gap ∧
        rest = lead.reverse.map .char := by
  constructor
  · intro h
    obtain ⟨beyond, hbeyond, hafter⟩ := Option.bind_eq_some_iff.1 h
    obtain ⟨gap, tail, hgap, htail, hsplit⟩ := exists_blanks_append text.reverse
    have hne : gap ≠ [] := by
      rintro rfl
      rw [hsplit, List.nil_append, beyondBlanks?_of_not_blank htail] at hbeyond
      cases hbeyond
    rw [hsplit, beyondBlanks?_blanks_append hne hgap htail, Option.some.injEq] at hbeyond
    rw [← hbeyond, afterChars?_eq_some_iff] at hafter
    obtain ⟨u, v, rfl, hu, rfl⟩ := List.map_eq_append_iff.1 hafter
    have hword' : u = word.toList.reverse :=
      List.map_injective_iff.2 (fun _ _ e => Cell.char.inj e) hu
    refine ⟨v.reverse, gap.reverse, by simpa using hne, hgap.reverse, ?_, by simp⟩
    rw [← List.reverse_reverse text, hsplit, hword']
    simp
  · rintro ⟨lead, gap, hne, hgap, rfl, rfl⟩
    have hreverse : (lead ++ word.toList ++ gap).reverse =
        gap.reverse ++ (word.toList.reverse ++ lead.reverse) := by simp
    have hlast : ∀ c ∈ (word.toList.reverse ++ lead.reverse).head?, isBlank c = false := by
      intro c hc
      obtain ⟨last, hlast, hblank⟩ := (Option.any_eq_true _ _).1 hword
      rw [List.head?_append, List.head?_reverse, hlast, Option.some_or] at hc
      cases hc
      simpa using hblank
    rw [beforeWord?, hreverse, beyondBlanks?_blanks_append (by simpa using hne) hgap.reverse hlast,
      Option.bind_some, List.map_append, afterChars?_eq_some_iff]

theorem any_beforeWord?_iff {word : String}
    (hword : word.toList.getLast?.any (!isBlank ·) = true)
    {words : List String} {p : List Cell → Bool}
    (hp : ∀ text : List Char, p (text.reverse.map .char) = true ↔ LineLed words text)
    (text : List Char) :
    (beforeWord? word.toList (text.reverse.map .char)).any p = true ↔
      LineLed (word :: words) text := by
  rw [Option.any_eq_true]
  constructor
  · rintro ⟨rest, hrest, h⟩
    obtain ⟨lead, gap, hne, hgap, rfl, rfl⟩ := (beforeWord?_eq_some_iff hword).1 hrest
    exact ⟨lead, gap, (hp lead).1 h, hne, hgap, rfl⟩
  · rintro ⟨lead, gap, hlead, hne, hgap, rfl⟩
    exact ⟨_, (beforeWord?_eq_some_iff hword).2 ⟨lead, gap, hne, hgap, rfl, rfl⟩, (hp lead).2 hlead⟩

/-! ### What stands next to an occurrence -/

theorem standsFree_iff {text : List Char} :
    standsFree (text.reverse.map .char) = true ↔ EndsFree text := by
  rcases List.eq_nil_or_concat text with rfl | ⟨lead, c, rfl⟩
  · exact iff_of_true rfl (Or.inl (Or.inl rfl))
  · rw [List.concat_eq_append]
    have hfree : standsFree ((lead ++ [c]).reverse.map .char) =
        (!isNameChar c && c != separator) := by
      simp [standsFree, Cell.continuesName, bne]
    rw [hfree, Bool.and_eq_true, Bool.not_eq_true', bne_iff_ne]
    constructor
    · rintro ⟨hname, hsep⟩
      exact Or.inr ⟨lead, c, rfl, hname, hsep⟩
    · rintro ((h | ⟨lead', h⟩) | ⟨lead', c', h, hname, hsep⟩)
      · simp at h
      · obtain ⟨-, rfl⟩ := List.append_singleton_inj.1 h
        decide
      · obtain ⟨-, rfl⟩ := List.append_singleton_inj.1 h
        exact ⟨hname, hsep⟩

/-- A documentation tag in reach of a place: the tag, blanks, and then no separator and no line
end. -/
theorem afterDocTag_iff {text : List Char} :
    afterDocTag (text.reverse.map .char) = true ↔
      ∃ lead tag gap run, tag ∈ referenceTags ∧ gap ≠ [] ∧ Blanks gap ∧
        (∀ c ∈ run, c ≠ separator ∧ c ≠ '\r' ∧ c ≠ '\n') ∧
          text = lead ++ '@' :: tag ++ gap ++ run := by
  induction text using List.reverseRecOn with
  | nil => simp [afterDocTag]
  | append_singleton text c ih =>
    rw [List.reverse_append, List.reverse_singleton, List.singleton_append, List.map_cons,
      afterDocTag, Bool.and_eq_true, Bool.not_eq_true', Bool.or_eq_true, Bool.and_eq_true,
      List.any_eq_true, ih]
    constructor
    · rintro ⟨hends, ⟨hblank, tag, htag, hlead⟩ | ⟨lead, tag, gap, run, htag, hne, hgap, hrun, rfl⟩⟩
      · rw [afterChars?_map_char] at hlead
        obtain ⟨back, hback⟩ := hlead
        refine ⟨back.reverse, tag, [c], [], htag, by simp, by simpa [Blanks, Cell.isBlank]
          using hblank, by simp, ?_⟩
        rw [← List.reverse_reverse text, ← hback]
        simp
      · have hc : c ≠ separator ∧ c ≠ '\r' ∧ c ≠ '\n' := by
          simpa [Cell.endsTagSearch, and_assoc] using hends
        refine ⟨lead, tag, gap, run ++ [c], htag, hne, hgap, ?_, by simp⟩
        rw [List.forall_mem_append, List.forall_mem_singleton]
        exact ⟨hrun, hc⟩
    · rintro ⟨lead, tag, gap, run, htag, hne, hgap, hrun, htext⟩
      rcases List.eq_nil_or_concat run with rfl | ⟨run, a, rfl⟩
      · obtain ⟨gap, a, rfl⟩ := (List.eq_nil_or_concat gap).resolve_left hne
        rw [List.concat_eq_append, List.append_nil, ← List.append_assoc] at htext
        obtain ⟨rfl, rfl⟩ := List.append_singleton_inj.1 htext
        rw [List.concat_eq_append, Blanks, List.forall_mem_append, List.forall_mem_singleton]
          at hgap
        refine ⟨?_, ?_⟩
        · have hblank : c = ' ' ∨ c = '\t' := by simpa [isBlank] using hgap.2
          rcases hblank with rfl | rfl <;> rfl
        · by_cases hgap0 : gap = []
          · subst hgap0
            refine Or.inl ⟨hgap.2, tag, htag, ?_⟩
            rw [afterChars?_map_char]
            exact ⟨lead.reverse, by simp⟩
          · exact Or.inr ⟨lead, tag, gap, [], htag, hgap0, hgap.1, by simp, by simp⟩
      · rw [List.concat_eq_append, ← List.append_assoc] at htext
        obtain ⟨rfl, rfl⟩ := List.append_singleton_inj.1 htext
        rw [List.concat_eq_append, List.forall_mem_append] at hrun
        refine ⟨by simpa [Cell.endsTagSearch, and_assoc] using hrun.2,
          Or.inr ⟨lead, tag, gap, run, htag, hne, hgap, hrun.1, rfl⟩⟩

/-! ### Shapes fit at their sites -/

theorem declarationEnd_iff {after : List Char} :
    (match (after.map Cell.char).dropWhile Cell.isBlank with
      | .char c :: _ => c == ';' || c == '\x7b' || c == separator
      | _ => false) = true ↔
      ∃ gap c rest, Blanks gap ∧ (c = ';' ∨ c = '\x7b' ∨ c = separator) ∧
        after = gap ++ c :: rest := by
  rw [dropWhile_isBlank_map_char]
  constructor
  · intro h
    obtain ⟨gap, rest, hgap, hrest, rfl⟩ := exists_blanks_append after
    rw [dropWhile_blanks_append hgap hrest] at h
    cases rest with
    | nil => cases h
    | cons c rest => exact ⟨gap, c, rest, hgap, by simpa [or_assoc] using h, rfl⟩
  · rintro ⟨gap, c, rest, hgap, hc, rfl⟩
    have hblank : ∀ a ∈ (c :: rest).head?, isBlank a = false := by
      rintro a ⟨⟩
      rcases hc with rfl | rfl | rfl <;> decide
    rw [dropWhile_blanks_append hgap hblank]
    simpa [or_assoc] using hc

theorem fits_declaration_iff {before after : List Char} :
    Shape.declaration.fits before after = true ↔ DeclarationSite before after := by
  rw [Shape.fits, Shape.recognises, Shape.recognisesDeclaration, Bool.and_eq_true,
    any_beforeWord?_iff (by decide) (fun _ => startsLine_iff), DeclarationSite]
  exact and_congr_right fun _ => declarationEnd_iff

theorem head?_eq_separator_iff {after : List Char} :
    ((after.map Cell.char).head? == some (.char separator)) = true ↔
      ∃ rest, after = separator :: rest := by
  cases after <;> simp

theorem fits_importation_iff {before after : List Char} :
    Shape.importation.fits before after = true ↔ ImportSite before after := by
  have huse : ∀ text : List Char,
      (beforeWord? "use".toList (text.reverse.map .char)).any startsLine = true ↔
        LineLed ["use"] text := any_beforeWord?_iff (by decide) (fun _ => startsLine_iff)
  have hword : ∀ word : String, (word.toList.getLast?.any fun c => !isBlank c) = true →
      ((((beforeWord? word.toList (before.reverse.map .char)).bind
        (beforeWord? "use".toList)).any startsLine) = true ↔ LineLed [word, "use"] before) := by
    intro word hlast
    rw [Option.any_bind]
    exact any_beforeWord?_iff hlast huse before
  rw [Shape.fits, Shape.recognises, Shape.recognisesImportation, Bool.and_eq_true, Bool.or_eq_true,
    huse, head?_eq_separator_iff, ImportSite]
  simp only [List.any_cons, List.any_nil, Bool.or_false, Bool.or_eq_true,
    hword "function" (by decide), hword "const" (by decide)]

/-- Characters that begin with separators, as cells and by themselves. -/
theorem map_char_eq_separators_append (count : Nat) {text : List Char} {rest : List Cell} :
    text.map Cell.char = List.replicate count (.char separator) ++ rest ↔
      ∃ tail, text = List.replicate count separator ++ tail ∧ rest = tail.map .char := by
  constructor
  · intro h
    obtain ⟨u, v, rfl, hu, rfl⟩ := List.map_eq_append_iff.1 h
    rw [← List.map_replicate] at hu
    rw [List.map_injective_iff.2 (fun _ _ e => Cell.char.inj e) hu]
    exact ⟨v, rfl, rfl⟩
  · rintro ⟨tail, rfl, rfl⟩
    simp

theorem bracketed_iff {count : Nat} {before after : List Char} :
    Shape.Bracketed count (before.reverse.map .char) (after.map .char) ↔
      BracketedSite count before after := by
  constructor
  · rintro ⟨b, a, hb, ha, hname, hfree⟩
    obtain ⟨back, hback, rfl⟩ := (map_char_eq_separators_append count).1 hb
    obtain ⟨tail, rfl, rfl⟩ := (map_char_eq_separators_append count).1 ha
    rw [← List.reverse_reverse back, standsFree_iff] at hfree
    cases tail with
    | nil => cases hname
    | cons c rest =>
      refine ⟨back.reverse, c, rest, ?_, hfree, rfl, hname⟩
      rw [← List.reverse_reverse before, hback, List.reverse_append, List.reverse_replicate]
  · rintro ⟨lead, c, rest, rfl, hfree, rfl, hname⟩
    refine ⟨lead.reverse.map .char, (c :: rest).map .char, ?_, ?_, hname, standsFree_iff.2 hfree⟩
    · simp
    · simp

theorem fits_qualified_iff {before after : List Char} :
    Shape.qualified.fits before after = true ↔ QualifiedSite before after :=
  Shape.recognisesQualified_iff.trans bracketed_iff

theorem fits_escaped_iff {before after : List Char} :
    Shape.escaped.fits before after = true ↔ EscapedSite before after :=
  Shape.recognisesEscaped_iff.trans bracketed_iff

theorem fits_documented_iff {before after : List Char} :
    Shape.documented.fits before after = true ↔ DocumentedSite before after := by
  rw [Shape.fits, Shape.recognises, Shape.recognisesDocumented_iff]
  constructor
  · rintro ⟨b, a, hb, ha, hdoc⟩
    obtain ⟨back, hback, rfl⟩ := (map_char_eq_separators_append 1).1 hb
    obtain ⟨tail, rfl, -⟩ := (map_char_eq_separators_append 1).1 ha
    rw [← List.reverse_reverse back, afterDocTag_iff] at hdoc
    obtain ⟨lead, tag, gap, run, htag, hne, hgap, hrun, htext⟩ := hdoc
    refine ⟨⟨lead, tag, gap, run, htag, hne, hgap, hrun, ?_⟩, tail, rfl⟩
    rw [← htext, ← List.reverse_reverse before, hback]
    simp
  · rintro ⟨⟨lead, tag, gap, run, htag, hne, hgap, hrun, rfl⟩, rest, rfl⟩
    refine ⟨_, rest.map .char, ?_, rfl,
      afterDocTag_iff.2 ⟨lead, tag, gap, run, htag, hne, hgap, hrun, rfl⟩⟩
    rw [List.reverse_append, List.map_append]
    rfl

end Branding
