import Branding.Proofs.Source.Context

/-!
# Contexts once they are written out

After the last pass the marks are written out, and a later run reads what is there then. In the
place of a mark it finds the placeholder with something in front of it; what it finds in the place
of an unclaimed occurrence, and of a character, is the same as before.

So a later run reads a *shadow* of the cells of the earlier one, and whatever a shape recognises in
the shadow it would have recognised in the cells. The one case that needs care is a name that begins
with the written form of a mark, as the mark itself begins none.

## Main definitions

* `Behind`, `Ahead` — the shadows of a context before an occurrence, and after it
* `Shape.separators` — how many separators a shape wants on both sides

## Main results

* `recognises_of_shadow` — a shape recognises no more in a shadow
-/

namespace Branding

/-- Nearest cell first, the second list is what a later run may find where the first one stood. In
the place of what is no character it finds an occurrence of the placeholder, and before that either
what follows or a separator. -/
inductive Behind : List Cell → List Cell → Prop
  | nil : Behind [] []
  | char (c : Char) {cells shadow : List Cell} :
      Behind cells shadow → Behind (.char c :: cells) (.char c :: shadow)
  | bare {c : Cell} {cells shadow : List Cell} (hc : ∀ a, c ≠ .char a) :
      Behind cells shadow → Behind (c :: cells) (.name :: shadow)
  | led {c : Cell} {cells shadow : List Cell} (hc : ∀ a, c ≠ .char a) :
      Behind (c :: cells) (.name :: .char separator :: shadow)

/-- The second list is what a later run may find where the first one stood: in the place of what is
no character, something that a name can begin with. -/
inductive Ahead : List Cell → List Cell → Prop
  | nil : Ahead [] []
  | char (c : Char) {cells shadow : List Cell} :
      Ahead cells shadow → Ahead (.char c :: cells) (.char c :: shadow)
  | other {c d : Cell} {cells shadow : List Cell} (hc : ∀ a, c ≠ .char a)
      (hd : d.startsName = true) : Ahead (c :: cells) (d :: shadow)

theorem Cell.isBlank_eq_false_of_ne_char {c : Cell} (h : ∀ a, c ≠ .char a) : c.isBlank = false := by
  match c with
  | .char a => exact absurd rfl (h a)
  | .name | .mark _ => rfl

theorem Cell.isBlank_eq_false_of_startsName {c : Cell} (h : c.startsName = true) :
    c.isBlank = false := by
  match c with
  | .name | .mark _ => rfl
  | .char a =>
    rw [Bool.eq_false_iff]
    intro hblank
    simp only [isBlank, Branding.isBlank, Bool.or_eq_true, beq_iff_eq] at hblank
    rcases hblank with rfl | rfl <;> exact absurd h (by decide)

/-! ### Before an occurrence -/

namespace Behind

variable {cells shadow rest : List Cell}

theorem dropWhile_isBlank (h : Behind cells shadow) :
    Behind (cells.dropWhile Cell.isBlank) (shadow.dropWhile Cell.isBlank) := by
  induction h with
  | nil => exact nil
  | char c h ih =>
    rw [List.dropWhile_cons, List.dropWhile_cons]
    split
    · exact ih
    · exact char c h
  | bare hc h ih =>
    rw [List.dropWhile_cons, if_neg (by simp [Cell.isBlank_eq_false_of_ne_char hc])]
    exact bare hc h
  | led hc =>
    rw [List.dropWhile_cons, if_neg (by simp [Cell.isBlank_eq_false_of_ne_char hc])]
    exact led hc

theorem afterChars? (h : Behind cells shadow) {word : List Char}
    (hword : Branding.afterChars? word shadow = some rest) :
    ∃ rest', Branding.afterChars? word cells = some rest' ∧ Behind rest' rest := by
  induction word generalizing cells shadow with
  | nil =>
    cases hword
    exact ⟨cells, rfl, h⟩
  | cons w word ih =>
    cases h with
    | nil => cases hword
    | char c h =>
      by_cases hc : w = c
      · rw [Branding.afterChars?, if_pos hc] at hword ⊢
        exact ih h hword
      · rw [Branding.afterChars?, if_neg hc] at hword
        cases hword
    | bare hc h => cases hword
    | led hc => cases hword

theorem beyondBlanks? (h : Behind cells shadow)
    (hblanks : Branding.beyondBlanks? shadow = some rest) :
    ∃ rest', Branding.beyondBlanks? cells = some rest' ∧ Behind rest' rest := by
  cases h with
  | nil => cases hblanks
  | char c h =>
    rw [Branding.beyondBlanks?] at hblanks ⊢
    split at hblanks
    next hc =>
      cases hblanks
      exact ⟨_, if_pos hc, h.dropWhile_isBlank⟩
    next => cases hblanks
  | bare hc h => cases hblanks
  | led hc => cases hblanks

theorem beforeWord? (h : Behind cells shadow) {word : List Char}
    (hword : Branding.beforeWord? word shadow = some rest) :
    ∃ rest', Branding.beforeWord? word cells = some rest' ∧ Behind rest' rest := by
  obtain ⟨beyond, hbeyond, hafter⟩ := Option.bind_eq_some_iff.1 hword
  obtain ⟨beyond', hbeyond', h'⟩ := h.beyondBlanks? hbeyond
  obtain ⟨rest', hrest', h''⟩ := h'.afterChars? hafter
  exact ⟨rest', Option.bind_eq_some_iff.2 ⟨beyond', hbeyond', hrest'⟩, h''⟩

theorem startsLine (h : Behind cells shadow) (hline : Branding.startsLine shadow = true) :
    Branding.startsLine cells = true := by
  have hdrop := h.dropWhile_isBlank
  unfold Branding.startsLine at hline ⊢
  generalize cells.dropWhile Cell.isBlank = beyond at hdrop ⊢
  generalize shadow.dropWhile Cell.isBlank = beyondShadow at hdrop hline
  cases hdrop with
  | nil => rfl
  | char c h => exact hline
  | bare hc h => cases hline
  | led hc => cases hline

theorem any_beforeWord? (h : Behind cells shadow) {word : List Char} {p : List Cell → Bool}
    (hp : ∀ {cells shadow}, Behind cells shadow → p shadow = true → p cells = true)
    (hword : (Branding.beforeWord? word shadow).any p = true) :
    (Branding.beforeWord? word cells).any p = true := by
  obtain ⟨rest, hrest, hpr⟩ := (Option.any_eq_true _ _).1 hword
  obtain ⟨rest', hrest', h'⟩ := h.beforeWord? hrest
  exact (Option.any_eq_true _ _).2 ⟨rest', hrest', hp h' hpr⟩

theorem afterDocTag (h : Behind cells shadow) (hdoc : Branding.afterDocTag shadow = true) :
    Branding.afterDocTag cells = true := by
  induction h with
  | nil => exact hdoc
  | @char c cells shadow h ih =>
    rw [Branding.afterDocTag, Bool.and_eq_true, Bool.or_eq_true, Bool.and_eq_true,
      List.any_eq_true] at hdoc ⊢
    obtain ⟨hends, ⟨hblank, tag, htag, hafter⟩ | hdoc⟩ := hdoc
    · obtain ⟨rest, hrest⟩ := Option.isSome_iff_exists.1 hafter
      obtain ⟨rest', hrest', -⟩ := h.afterChars? hrest
      exact ⟨hends, Or.inl ⟨hblank, tag, htag, by rw [hrest']; rfl⟩⟩
    · exact ⟨hends, Or.inr (ih hdoc)⟩
  | @bare c cells shadow hc h ih =>
    have hends : c.endsTagSearch = false := by
      cases c with
      | char a => exact absurd rfl (hc a)
      | name | mark _ => rfl
    rw [Branding.afterDocTag, hends, ih hdoc]
    simp
  | led hc => cases hdoc

theorem standsFree (h : Behind cells shadow) (hfree : Branding.standsFree shadow = true) :
    Branding.standsFree cells = true := by
  cases h with
  | nil => rfl
  | char c h => exact hfree
  | bare hc h => cases hfree
  | led hc => cases hfree

theorem separators_append {count : Nat}
    (h : Behind cells (List.replicate count (.char separator) ++ rest)) :
    ∃ rest', cells = List.replicate count (.char separator) ++ rest' ∧ Behind rest' rest := by
  induction count generalizing cells with
  | zero => exact ⟨cells, rfl, h⟩
  | succ count ih =>
    cases h with
    | char c h =>
      obtain ⟨rest', rfl, h'⟩ := ih h
      exact ⟨rest', rfl, h'⟩

end Behind

/-! ### After an occurrence -/

namespace Ahead

variable {cells shadow rest : List Cell}

/-- A character that no name begins with comes from a cell of its own. -/
theorem char_cons {c : Char} (h : Ahead cells (.char c :: rest)) (hc : isNameStart c = false) :
    ∃ rest', cells = .char c :: rest' ∧ Ahead rest' rest := by
  cases h with
  | char _ h => exact ⟨_, rfl, h⟩
  | other _ hd =>
    rw [Cell.startsName, hc] at hd
    cases hd

theorem separators_append {count : Nat}
    (h : Ahead cells (List.replicate count (.char separator) ++ rest)) :
    ∃ rest', cells = List.replicate count (.char separator) ++ rest' ∧ Ahead rest' rest := by
  induction count generalizing cells with
  | zero => exact ⟨cells, rfl, h⟩
  | succ count ih =>
    obtain ⟨rest', rfl, h'⟩ := h.char_cons (by decide)
    obtain ⟨rest'', rfl, h''⟩ := ih h'
    exact ⟨rest'', rfl, h''⟩

theorem dropWhile_isBlank (h : Ahead cells shadow) :
    Ahead (cells.dropWhile Cell.isBlank) (shadow.dropWhile Cell.isBlank) := by
  induction h with
  | nil => exact nil
  | char c h ih =>
    rw [List.dropWhile_cons, List.dropWhile_cons]
    split
    · exact ih
    · exact char c h
  | other hc hd =>
    rw [List.dropWhile_cons, if_neg (by simp [Cell.isBlank_eq_false_of_ne_char hc]),
      List.dropWhile_cons, if_neg (by simp [Cell.isBlank_eq_false_of_startsName hd])]
    exact other hc hd

/-- Where no mark is next, a name begins in cells where one begins in their shadow. -/
theorem head_startsName (h : Ahead cells shadow) (hmark : ∀ m rest, cells ≠ .mark m :: rest)
    (hname : shadow.head?.any Cell.startsName = true) :
    cells.head?.any Cell.startsName = true := by
  cases h with
  | nil => exact hname
  | char c h => exact hname
  | @other c _ _ _ hc _ =>
    match c with
    | .char a => exact absurd rfl (hc a)
    | .name => rfl
    | .mark m => exact absurd rfl (hmark m _)

end Ahead

/-! ### Shapes -/

namespace Shape

/-- How many separators a shape wants on both sides, where a name must follow them. -/
def separators : Shape → Nat
  | .qualified => 1
  | .escaped => 2
  | _ => 0

variable {before before' after after' : List Cell}

theorem recognisesDeclaration_iff :
    recognisesDeclaration before after = true ↔
      (beforeWord? "namespace".toList before).any startsLine = true ∧
        ∃ c rest, after.dropWhile Cell.isBlank = .char c :: rest ∧
          (c = ';' ∨ c = '\x7b' ∨ c = separator) := by
  rw [recognisesDeclaration, Bool.and_eq_true]
  refine and_congr_right fun _ => ?_
  split
  next c rest h => simp [h, or_assoc]
  next h =>
    refine iff_of_false (by simp) ?_
    rintro ⟨c, rest, hrest, -⟩
    exact h c rest hrest

theorem recognisesLoaderLiteral_iff :
    recognisesLoaderLiteral before after = true ↔
      ∃ b a, before = .char '\'' :: b ∧
        after = .char separator :: .char separator :: .char '\'' :: a ∧
        (∃ rest, a.dropWhile Cell.isBlank = .char ';' :: rest) ∧
        ∃ b', b.dropWhile Cell.isBlank = .char '=' :: b' ∧
          (afterChars? "$prefix".toList.reverse (b'.dropWhile Cell.isBlank)).isSome = true := by
  constructor
  · intro h
    unfold recognisesLoaderLiteral at h
    split at h
    next q b a₁ a₂ q' a =>
      simp only [Bool.and_eq_true, beq_iff_eq] at h
      obtain ⟨⟨⟨⟨⟨rfl, rfl⟩, rfl⟩, rfl⟩, hsemi⟩, hlead⟩ := h
      refine ⟨b, a, rfl, rfl, ?_, ?_⟩
      · obtain ⟨rest, hrest⟩ := List.head?_eq_some_iff.1 hsemi
        exact ⟨rest, hrest⟩
      · split at hlead
        next e b' he =>
          simp only [Bool.and_eq_true, beq_iff_eq] at hlead
          obtain ⟨rfl, hlead⟩ := hlead
          exact ⟨b', he, hlead⟩
        next => cases hlead
    next => cases h
  · rintro ⟨b, a, rfl, rfl, ⟨rest, hrest⟩, b', hb', hlead⟩
    simpa [recognisesLoaderLiteral, hrest, hb'] using hlead

theorem bracketed_of_shadow {count : Nat} (hb : Behind before before') (ha : Ahead after after')
    (hmark : ∀ m rest, after ≠ List.replicate count (.char separator) ++ .mark m :: rest)
    (h : Bracketed count before' after') : Bracketed count before after := by
  obtain ⟨b', a', rfl, rfl, hname, hfree⟩ := h
  obtain ⟨b, rfl, hb'⟩ := hb.separators_append
  obtain ⟨a, rfl, ha'⟩ := ha.separators_append
  refine ⟨b, a, rfl, rfl, ha'.head_startsName ?_ hname, hb'.standsFree hfree⟩
  rintro m rest rfl
  exact hmark m rest rfl

/-- What a shape recognises in a shadow it recognises in the cells, where no mark stands right
beyond the separators that it wants. -/
theorem recognises_of_shadow {s : Shape} (hb : Behind before before') (ha : Ahead after after')
    (hmark : ∀ m rest, after ≠ List.replicate s.separators (.char separator) ++ .mark m :: rest)
    (h : s.recognises before' after' = true) : s.recognises before after = true := by
  cases s with
  | declaration =>
    obtain ⟨hlead, c, rest, hrest, hc⟩ := recognisesDeclaration_iff.1 h
    have ha' := ha.dropWhile_isBlank
    rw [hrest] at ha'
    obtain ⟨rest', hrest', -⟩ := ha'.char_cons (by rcases hc with rfl | rfl | rfl <;> decide)
    exact recognisesDeclaration_iff.2
      ⟨hb.any_beforeWord? (fun h => h.startsLine) hlead, c, rest', hrest', hc⟩
  | importation =>
    rw [recognises, recognisesImportation, Bool.and_eq_true, Bool.or_eq_true, List.any_eq_true]
      at h ⊢
    obtain ⟨hlead, hsep⟩ := h
    refine ⟨?_, ?_⟩
    · rcases hlead with hlead | ⟨word, hword, hlead⟩
      · exact Or.inl (hb.any_beforeWord? (fun h => h.startsLine) hlead)
      · rw [Option.any_bind] at hlead
        refine Or.inr ⟨word, hword, ?_⟩
        rw [Option.any_bind]
        exact hb.any_beforeWord? (fun h => h.any_beforeWord? fun h => h.startsLine) hlead
    · obtain ⟨rest, rfl⟩ := List.head?_eq_some_iff.1 (beq_iff_eq.1 hsep)
      obtain ⟨rest', rfl, -⟩ := ha.char_cons (by decide)
      exact beq_iff_eq.2 rfl
  | qualified =>
    exact recognisesQualified_iff.2 (bracketed_of_shadow hb ha hmark (recognisesQualified_iff.1 h))
  | documented =>
    obtain ⟨b', a', rfl, rfl, hdoc⟩ := recognisesDocumented_iff.1 h
    cases hb with
    | char _ hb =>
      obtain ⟨a, rfl, -⟩ := ha.char_cons (by decide)
      exact recognisesDocumented_iff.2 ⟨_, a, rfl, rfl, hb.afterDocTag hdoc⟩
  | escaped =>
    exact recognisesEscaped_iff.2 (bracketed_of_shadow hb ha hmark (recognisesEscaped_iff.1 h))
  | loaderLiteral =>
    obtain ⟨b', a', rfl, rfl, ⟨rest, hrest⟩, e', he', hword⟩ := recognisesLoaderLiteral_iff.1 h
    cases hb with
    | @char _ b _ hb =>
      obtain ⟨a₁, rfl, ha₁⟩ := ha.char_cons (by decide)
      obtain ⟨a₂, rfl, ha₂⟩ := ha₁.char_cons (by decide)
      obtain ⟨a, rfl, ha₃⟩ := ha₂.char_cons (by decide)
      have hsemi := ha₃.dropWhile_isBlank
      rw [hrest] at hsemi
      obtain ⟨rest', hrest', -⟩ := hsemi.char_cons (by decide)
      have hequals := hb.dropWhile_isBlank
      rw [he'] at hequals
      obtain ⟨e, he, hbehind⟩ : ∃ e, b.dropWhile Cell.isBlank = .char '=' :: e ∧ Behind e e' := by
        generalize b.dropWhile Cell.isBlank = beyond at hequals ⊢
        cases hequals with
        | char _ h => exact ⟨_, rfl, h⟩
      obtain ⟨found, hfound⟩ := Option.isSome_iff_exists.1 hword
      obtain ⟨found', hfound', -⟩ := hbehind.dropWhile_isBlank.afterChars? hfound
      exact recognisesLoaderLiteral_iff.2
        ⟨b, a, rfl, rfl, ⟨rest', hrest'⟩, e, he, by rw [hfound']; rfl⟩

end Shape

end Branding
