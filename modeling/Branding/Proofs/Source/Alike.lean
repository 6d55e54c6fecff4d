import Branding.Proofs.Source.Shadow

/-!
# Contexts that no shape tells apart

A shape reads outward from an occurrence and stops soon: at the line feed before it, at a bracket,
at the first character behind it that belongs to no reference. What lies beyond the stop is not
read. So two contexts that agree as far as a stop are *alike*, and a shape that recognises an
occurrence between the ones recognises it between the others.

The search for a documentation tag is the exception. It goes over brackets and quotes back to the
last separator on the line, so for it the two contexts have to agree on whether a tag is in reach.

## Main definitions

* `Alike` — contexts that agree as far as a stop
* `StopBehind`, `StopAhead` — the stops before an occurrence, and after it

## Main results

* `Shape.recognises_of_alike` — no shape tells contexts apart that are alike
-/

namespace Branding

/-- Contexts that agree cell by cell, as far as two ends that `Stop` allows. -/
inductive Alike (Stop : List Cell → List Cell → Prop) : List Cell → List Cell → Prop
  | stop {a b : List Cell} : Stop a b → Alike Stop a b
  | cons (c : Cell) {a b : List Cell} : Alike Stop a b → Alike Stop (c :: a) (c :: b)

/-- Ends of two contexts before an occurrence: nothing, a line feed, a closing bracket or a
semicolon, and a line starts at both or at neither. -/
structure StopBehind (a b : List Cell) : Prop where
  left : ∀ c ∈ a.head?, c = .char '\n' ∨ c = .char ')' ∨ c = .char ';'
  right : ∀ c ∈ b.head?, c = .char '\n' ∨ c = .char ')' ∨ c = .char ';'
  line : startsLine a = startsLine b

/-- Ends of two contexts after an occurrence: nothing, a line end, a letter or a dollar sign, and a
name begins at both or at neither. -/
structure StopAhead (a b : List Cell) : Prop where
  left : ∀ c ∈ a.head?, c = .char '\r' ∨ c = .char '\n' ∨ c = .char 'f' ∨ c = .char '$'
  right : ∀ c ∈ b.head?, c = .char '\r' ∨ c = .char '\n' ∨ c = .char 'f' ∨ c = .char '$'
  name : a.head?.any Cell.startsName = b.head?.any Cell.startsName

theorem StopBehind.symm {a b : List Cell} (h : StopBehind a b) : StopBehind b a :=
  ⟨h.right, h.left, h.line.symm⟩

theorem StopAhead.symm {a b : List Cell} (h : StopAhead a b) : StopAhead b a :=
  ⟨h.right, h.left, h.name.symm⟩

theorem stopBehind_nil : StopBehind [] [] := ⟨by simp, by simp, rfl⟩

theorem stopAhead_nil : StopAhead [] [] := ⟨by simp, by simp, rfl⟩

namespace Alike

variable {Stop : List Cell → List Cell → Prop} {a b : List Cell}

theorem refl (h : Stop [] []) (cells : List Cell) : Alike Stop cells cells := by
  induction cells with
  | nil => exact .stop h
  | cons c cells ih => exact .cons c ih

theorem symm (h : Alike Stop a b) (hsymm : ∀ {a b}, Stop a b → Stop b a) : Alike Stop b a := by
  induction h with
  | stop h => exact .stop (hsymm h)
  | cons c _ ih => exact .cons c ih

theorem append (h : Alike Stop a b) (cells : List Cell) : Alike Stop (cells ++ a) (cells ++ b) := by
  induction cells with
  | nil => exact h
  | cons c cells ih => exact .cons c ih

/-- A cell that is no stop is the same on both sides. -/
theorem eq_cons {c : Cell} (h : Alike Stop (c :: a) b)
    (hc : ∀ {a b}, Stop (c :: a) b → False) : ∃ b', b = c :: b' ∧ Alike Stop a b' := by
  cases h with
  | stop h => exact (hc h).elim
  | cons _ h => exact ⟨_, rfl, h⟩

/-- So are as many cells as are no stops. -/
theorem eq_replicate_append {c : Cell} {count : Nat}
    (h : Alike Stop (List.replicate count c ++ a) b) (hc : ∀ {a b}, Stop (c :: a) b → False) :
    ∃ b', b = List.replicate count c ++ b' ∧ Alike Stop a b' := by
  induction count generalizing b with
  | zero => exact ⟨b, rfl, h⟩
  | succ count ih =>
    obtain ⟨b', rfl, h'⟩ := h.eq_cons hc
    obtain ⟨b'', rfl, h''⟩ := ih h'
    exact ⟨b'', rfl, h''⟩

/-- What two contexts that are alike have beyond their blanks is alike, where no stop is blank. -/
theorem dropWhile_isBlank (h : Alike Stop a b)
    (hblank : ∀ {a b}, Stop a b → Stop (a.dropWhile Cell.isBlank) (b.dropWhile Cell.isBlank)) :
    Alike Stop (a.dropWhile Cell.isBlank) (b.dropWhile Cell.isBlank) := by
  induction h with
  | stop h => exact .stop (hblank h)
  | cons c h ih =>
    rw [List.dropWhile_cons, List.dropWhile_cons]
    split
    · exact ih
    · exact .cons c h

end Alike

theorem dropWhile_isBlank_of_head {cells : List Cell}
    (h : ∀ c ∈ cells.head?, c.isBlank = false) : cells.dropWhile Cell.isBlank = cells := by
  cases cells with
  | nil => rfl
  | cons c cells => rw [List.dropWhile_cons, if_neg (by simp [h c rfl])]

/-! ### Before an occurrence -/

namespace StopBehind

variable {a b : List Cell}

theorem char_cons {c : Char} (hc : c ≠ '\n' ∧ c ≠ ')' ∧ c ≠ ';')
    (h : StopBehind (.char c :: a) b) : False := by
  rcases h.left _ rfl with h | h | h
  · exact hc.1 (Cell.char.inj h)
  · exact hc.2.1 (Cell.char.inj h)
  · exact hc.2.2 (Cell.char.inj h)

theorem dropWhile_isBlank (h : StopBehind a b) :
    StopBehind (a.dropWhile Cell.isBlank) (b.dropWhile Cell.isBlank) := by
  rw [dropWhile_isBlank_of_head, dropWhile_isBlank_of_head]
  · exact h
  · intro c hc
    rcases h.right c hc with rfl | rfl | rfl <;> rfl
  · intro c hc
    rcases h.left c hc with rfl | rfl | rfl <;> rfl

end StopBehind

namespace Alike

variable {a b rest : List Cell}

theorem startsLine (h : Alike StopBehind a b) : startsLine a = Branding.startsLine b := by
  induction h with
  | stop h => exact h.line
  | cons c h ih =>
    by_cases hc : c.isBlank = true
    · simpa [Branding.startsLine, List.dropWhile_cons, hc] using ih
    · simp [Branding.startsLine, hc]

theorem afterChars? (h : Alike StopBehind a b) {word : List Char}
    (hword : '\n' ∉ word ∧ ')' ∉ word ∧ ';' ∉ word)
    (ha : Branding.afterChars? word a = some rest) :
    ∃ rest', Branding.afterChars? word b = some rest' ∧ Alike StopBehind rest rest' := by
  induction word generalizing a b with
  | nil =>
    cases ha
    exact ⟨b, rfl, h⟩
  | cons w word ih =>
    simp only [List.mem_cons, not_or] at hword
    obtain ⟨⟨hline, hword₁⟩, ⟨hbracket, hword₂⟩, hsemicolon, hword₃⟩ := hword
    rw [afterChars?_eq_some_iff] at ha
    subst ha
    obtain ⟨b', rfl, h'⟩ := h.eq_cons
      (StopBehind.char_cons ⟨Ne.symm hline, Ne.symm hbracket, Ne.symm hsemicolon⟩)
    rw [Branding.afterChars?, if_pos rfl]
    exact ih h' ⟨hword₁, hword₂, hword₃⟩ (afterChars?_eq_some_iff.2 rfl)

theorem beyondBlanks? (h : Alike StopBehind a b) (ha : Branding.beyondBlanks? a = some rest) :
    ∃ rest', Branding.beyondBlanks? b = some rest' ∧ Alike StopBehind rest rest' := by
  cases a with
  | nil => cases ha
  | cons c a =>
    rw [Branding.beyondBlanks?] at ha
    split at ha
    next hc =>
      cases ha
      have hstop : ∀ {a b}, StopBehind (c :: a) b → False := by
        intro a b h
        rcases h.left c rfl with rfl | rfl | rfl <;> cases hc
      obtain ⟨b', rfl, h'⟩ := h.eq_cons hstop
      exact ⟨_, if_pos hc, h'.dropWhile_isBlank StopBehind.dropWhile_isBlank⟩
    next => cases ha

theorem beforeWord? (h : Alike StopBehind a b) {word : List Char}
    (hword : '\n' ∉ word.reverse ∧ ')' ∉ word.reverse ∧ ';' ∉ word.reverse)
    (ha : Branding.beforeWord? word a = some rest) :
    ∃ rest', Branding.beforeWord? word b = some rest' ∧ Alike StopBehind rest rest' := by
  obtain ⟨beyond, hbeyond, hafter⟩ := Option.bind_eq_some_iff.1 ha
  obtain ⟨beyond', hbeyond', h'⟩ := h.beyondBlanks? hbeyond
  obtain ⟨rest', hrest', h''⟩ := h'.afterChars? hword hafter
  exact ⟨rest', Option.bind_eq_some_iff.2 ⟨beyond', hbeyond', hrest'⟩, h''⟩

theorem any_beforeWord? (h : Alike StopBehind a b) {word : List Char}
    (hword : '\n' ∉ word.reverse ∧ ')' ∉ word.reverse ∧ ';' ∉ word.reverse) {p : List Cell → Bool}
    (hp : ∀ {a b}, Alike StopBehind a b → p a = true → p b = true)
    (ha : (Branding.beforeWord? word a).any p = true) :
    (Branding.beforeWord? word b).any p = true := by
  obtain ⟨rest, hrest, hpr⟩ := (Option.any_eq_true _ _).1 ha
  obtain ⟨rest', hrest', h'⟩ := h.beforeWord? hword hrest
  exact (Option.any_eq_true _ _).2 ⟨rest', hrest', hp h' hpr⟩

theorem startsLine_of_startsLine (h : Alike StopBehind a b) (ha : Branding.startsLine a = true) :
    Branding.startsLine b = true := by
  rwa [← h.startsLine]

theorem standsFree (h : Alike StopBehind a b) (ha : Branding.standsFree a = true) :
    Branding.standsFree b = true := by
  cases h with
  | cons c h => exact ha
  | stop h =>
    rw [Branding.standsFree, Option.all_eq_true]
    intro c hc
    rcases h.right c hc with rfl | rfl | rfl <;> decide

end Alike

/-! ### After an occurrence -/

namespace StopAhead

variable {a b : List Cell}

theorem char_cons {c : Char} (hc : c ≠ '\r' ∧ c ≠ '\n' ∧ c ≠ 'f' ∧ c ≠ '$')
    (h : StopAhead (.char c :: a) b) : False := by
  rcases h.left _ rfl with h | h | h | h
  · exact hc.1 (Cell.char.inj h)
  · exact hc.2.1 (Cell.char.inj h)
  · exact hc.2.2.1 (Cell.char.inj h)
  · exact hc.2.2.2 (Cell.char.inj h)

theorem dropWhile_isBlank (h : StopAhead a b) :
    StopAhead (a.dropWhile Cell.isBlank) (b.dropWhile Cell.isBlank) := by
  rw [dropWhile_isBlank_of_head, dropWhile_isBlank_of_head]
  · exact h
  · intro c hc
    rcases h.right c hc with rfl | rfl | rfl | rfl <;> rfl
  · intro c hc
    rcases h.left c hc with rfl | rfl | rfl | rfl <;> rfl

end StopAhead

theorem Alike.head_startsName {a b : List Cell} (h : Alike StopAhead a b) :
    a.head?.any Cell.startsName = b.head?.any Cell.startsName := by
  cases h with
  | cons c h => rfl
  | stop h => exact h.name

/-! ### Shapes -/

namespace Shape

variable {before before' after after' : List Cell}

theorem bracketed_of_alike {count : Nat} (hb : Alike StopBehind before before')
    (ha : Alike StopAhead after after') (h : Bracketed count before after) :
    Bracketed count before' after' := by
  obtain ⟨b, a, rfl, rfl, hname, hfree⟩ := h
  obtain ⟨b', rfl, hb'⟩ := hb.eq_replicate_append (StopBehind.char_cons (by decide))
  obtain ⟨a', rfl, ha'⟩ := ha.eq_replicate_append (StopAhead.char_cons (by decide))
  exact ⟨b', a', rfl, rfl, ha'.head_startsName ▸ hname, hb'.standsFree hfree⟩

/-- What a shape recognises between two contexts it recognises between two others that are alike. -/
theorem recognises_of_alike {s : Shape} (hb : Alike StopBehind before before')
    (ha : Alike StopAhead after after')
    (hdoc : s = .documented → ∀ b b', before = .char separator :: b →
      before' = .char separator :: b' → afterDocTag b = true → afterDocTag b' = true)
    (h : s.recognises before after = true) : s.recognises before' after' = true := by
  cases s with
  | declaration =>
    obtain ⟨hlead, c, rest, hrest, hc⟩ := recognisesDeclaration_iff.1 h
    have hafter := ha.dropWhile_isBlank StopAhead.dropWhile_isBlank
    rw [hrest] at hafter
    obtain ⟨rest', hrest', -⟩ := hafter.eq_cons (StopAhead.char_cons (by
      rcases hc with rfl | rfl | rfl <;> decide))
    have hlead' := hb.any_beforeWord? (by decide) (fun h => h.startsLine_of_startsLine) hlead
    exact recognisesDeclaration_iff.2 ⟨hlead', c, rest', hrest', hc⟩
  | importation =>
    rw [recognises, recognisesImportation, Bool.and_eq_true, Bool.or_eq_true,
      List.any_eq_true] at h ⊢
    obtain ⟨hlead, hsep⟩ := h
    refine ⟨?_, ?_⟩
    · rcases hlead with hlead | ⟨word, hword, hlead⟩
      · exact Or.inl (hb.any_beforeWord? (by decide) (fun h => h.startsLine_of_startsLine) hlead)
      · have hpasses : '\n' ∉ word.toList.reverse ∧ ')' ∉ word.toList.reverse ∧
          ';' ∉ word.toList.reverse := by
          clear hlead
          revert word
          decide
        rw [Option.any_bind] at hlead
        refine Or.inr ⟨word, hword, ?_⟩
        rw [Option.any_bind]
        exact hb.any_beforeWord? hpasses
          (fun h => h.any_beforeWord? (by decide) fun h => h.startsLine_of_startsLine) hlead
    · obtain ⟨rest, rfl⟩ := List.head?_eq_some_iff.1 (beq_iff_eq.1 hsep)
      obtain ⟨rest', rfl, -⟩ := ha.eq_cons (StopAhead.char_cons (by decide))
      exact beq_iff_eq.2 rfl
  | qualified =>
    exact recognisesQualified_iff.2 (bracketed_of_alike hb ha (recognisesQualified_iff.1 h))
  | documented =>
    obtain ⟨b, a, rfl, rfl, hfound⟩ := recognisesDocumented_iff.1 h
    obtain ⟨b', rfl, -⟩ := hb.eq_cons (StopBehind.char_cons (by decide))
    obtain ⟨a', rfl, -⟩ := ha.eq_cons (StopAhead.char_cons (by decide))
    exact recognisesDocumented_iff.2 ⟨b', a', rfl, rfl, hdoc rfl b b' rfl rfl hfound⟩
  | escaped =>
    exact recognisesEscaped_iff.2 (bracketed_of_alike hb ha (recognisesEscaped_iff.1 h))
  | loaderLiteral =>
    obtain ⟨b, a, rfl, rfl, ⟨rest, hrest⟩, e, he, hword⟩ := recognisesLoaderLiteral_iff.1 h
    obtain ⟨b', rfl, hb'⟩ := hb.eq_cons (StopBehind.char_cons (by decide))
    obtain ⟨_, rfl, ha₁⟩ := ha.eq_cons (StopAhead.char_cons (by decide))
    obtain ⟨_, rfl, ha₂⟩ := ha₁.eq_cons (StopAhead.char_cons (by decide))
    obtain ⟨a', rfl, ha'⟩ := ha₂.eq_cons (StopAhead.char_cons (by decide))
    have hsemi := ha'.dropWhile_isBlank StopAhead.dropWhile_isBlank
    rw [hrest] at hsemi
    obtain ⟨rest', hrest', -⟩ := hsemi.eq_cons (StopAhead.char_cons (by decide))
    have hequals := hb'.dropWhile_isBlank StopBehind.dropWhile_isBlank
    rw [he] at hequals
    obtain ⟨e', he', hbehind⟩ := hequals.eq_cons (StopBehind.char_cons (by decide))
    obtain ⟨found, hfound⟩ := Option.isSome_iff_exists.1 hword
    obtain ⟨found', hfound', -⟩ :=
      (hbehind.dropWhile_isBlank StopBehind.dropWhile_isBlank).afterChars? (by decide) hfound
    exact recognisesLoaderLiteral_iff.2
      ⟨b', a', rfl, rfl, ⟨rest', hrest'⟩, e', he', by rw [hfound']; rfl⟩

/-- Contexts that are alike a shape does not tell apart, where a documentation tag is in reach of
both or of neither. -/
theorem recognises_eq_of_alike {s : Shape} (hb : Alike StopBehind before before')
    (ha : Alike StopAhead after after')
    (hdoc : s = .documented → ∀ b b', before = .char separator :: b →
      before' = .char separator :: b' → afterDocTag b = afterDocTag b') :
    s.recognises before after = s.recognises before' after' := by
  rw [Bool.eq_iff_iff]
  constructor
  · exact recognises_of_alike hb ha fun hs b b' hbefore hbefore' h =>
      hdoc hs b b' hbefore hbefore' ▸ h
  · exact recognises_of_alike (hb.symm StopBehind.symm) (ha.symm StopAhead.symm)
      fun hs b b' hbefore hbefore' h => (hdoc hs b' b hbefore' hbefore).symm ▸ h

end Shape

end Branding
