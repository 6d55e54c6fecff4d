import Branding.Proofs.Source.Kept
import Branding.Proofs.Source.Points

/-!
# The assignment of a loader's prefix

What a loader compares class names with it has assigned to a variable before. That assignment is a
place at which a loader comes apart under branding. No shape reads beyond a dollar sign from before
it, and none that a loader is searched for reads beyond a semicolon from behind it. Between the two
stands one occurrence, behind a quote, where only the shape of the assignment itself recognises
anything.

So whatever stands around the assignment, its literal becomes that of the target, the blanks in it
stay, and the text on either side is branded as if the other were not there. The semicolon stays
with what follows, since a text begins where a line does and what stands behind a semicolon does
not.

## Main definitions

* `prefixAssignment` — the assignment of a text to the loader's variable, up to the semicolon

## Main results

* `Shape.stage_prefixAssignment` — one pass over a loader that holds the assignment
* `brandLoader_prefixAssignment` — a loader that holds the assignment, branded
-/

namespace Branding

/-- The name of the variable, without the dollar sign. -/
def prefixVariable : List Char := "prefix".toList

/-- The assignment of a quoted literal to the loader's variable, up to the semicolon: the blanks
around the equals sign, what stands between the quotes, and the blanks before the semicolon. -/
def prefixAssignment (gap gap' literal gap'' : List Char) : List Char :=
  '$' :: prefixVariable ++ gap ++ '=' :: gap' ++ '\'' :: literal ++ '\'' :: gap''

/-- The part of the assignment between the dollar sign and the literal. -/
def prefixLead (gap gap' : List Char) : List Char :=
  prefixVariable ++ gap ++ '=' :: gap' ++ ['\'']

/-- The part of the assignment behind the name in the literal. -/
def prefixTail (gap : List Char) : List Char := separator :: separator :: '\'' :: gap

theorem prefixAssignment_eq (gap gap' name gap'' : List Char) :
    prefixAssignment gap gap' (name ++ [separator, separator]) gap'' =
      '$' :: (prefixLead gap gap' ++ (name ++ prefixTail gap'')) := by
  simp [prefixAssignment, prefixLead, prefixTail]

theorem dropWhile_isBlank_blanks {gap : List Char} (hgap : Blanks gap) {c : Char}
    (hc : isBlank c = false) (rest : List Cell) :
    (gap.map Cell.char ++ .char c :: rest).dropWhile Cell.isBlank = .char c :: rest := by
  induction gap with
  | nil =>
    refine dropWhile_isBlank_of_head fun d hd => ?_
    cases hd
    exact hc
  | cons a gap ih =>
    rw [Blanks, List.forall_mem_cons] at hgap
    have ha : (Cell.char a).isBlank = true := hgap.1
    rw [List.map_cons, List.cons_append, List.dropWhile_cons, if_pos ha, ih hgap.2]

/-! ### Cells -/

theorem absorb_append_of_word {word : List Char} (hne : word ≠ []) (cell : Cell)
    (rest : List Cell) :
    absorb word cell (word.map .char ++ rest) = cell :: absorb word cell rest := by
  obtain ⟨w, word, rfl⟩ := List.exists_cons_of_ne_nil hne
  have hfound : afterChars? (w :: word) ((w :: word).map .char ++ rest) = some rest :=
    afterChars?_eq_some_iff.2 rfl
  rw [List.map_cons, List.cons_append] at hfound ⊢
  rw [absorb_cons, hfound, Option.isSome_some, if_pos rfl, List.length_cons, Nat.add_sub_cancel]
  simp

theorem absorb_written_append (m : Mark) {u : List Char} (h : '\x00' ∉ u) (v : List Cell) :
    absorb m.written (.mark m) (u.map .char ++ v) =
      u.map .char ++ absorb m.written (.mark m) v := by
  induction u with
  | nil => rfl
  | cons c u ih =>
    rw [List.mem_cons, not_or] at h
    rw [List.map_cons, List.cons_append, absorb_written_char_cons h.1, ih h.2, List.cons_append]

/-- The placeholder at the head of a text is an occurrence, whatever follows. -/
theorem cells_placeholder_append (text : List Char) :
    cells (placeholder ++ text) = .name :: cells text := by
  have hnul : '\x00' ∉ placeholder := by decide
  rw [cells, List.map_append, absorb_written_append .plain hnul,
    absorb_written_append .doubled hnul, absorb_append_of_word (by decide)]
  rfl

section Blank

variable {gap gap' gap'' : List Char} (hgap : Blanks gap) (hgap' : Blanks gap')
  (hgap'' : Blanks gap'')

include hgap hgap' in
theorem not_mem_prefixLead {c : Char} (hblank : isBlank c = false)
    (hc : c ∉ prefixVariable ++ ['=', '\'']) : c ∉ prefixLead gap gap' := by
  have hgaps := And.intro (not_mem_of_blanks hblank hgap) (not_mem_of_blanks hblank hgap')
  simp only [prefixLead, List.mem_append, List.mem_cons, List.not_mem_nil, or_false, not_or] at hc ⊢
  exact ⟨⟨⟨hc.1, hgaps.1⟩, hc.2.1, hgaps.2⟩, hc.2.2⟩

include hgap'' in
theorem not_mem_prefixTail {c : Char} (hblank : isBlank c = false)
    (hc : c ∉ [separator, '\'']) : c ∉ prefixTail gap'' := by
  have hfree := not_mem_of_blanks hblank hgap''
  simp only [prefixTail, List.mem_cons, List.not_mem_nil, or_false, not_or] at hc ⊢
  exact ⟨hc.1, hc.1, hc.2, hfree⟩

include hgap hgap' hgap''

/-- A loader that assigns the placeholder, in cells. -/
theorem cells_prefixAssignment (before after : List Char) :
    cells (before ++
        prefixAssignment gap gap' (placeholder ++ [separator, separator]) gap'' ++ ';' :: after) =
      cells before ++ .char '$' :: ((prefixLead gap gap').map .char ++
        .name :: ((prefixTail gap'').map .char ++ cells (';' :: after))) := by
  have hlead := fun {c} => not_mem_prefixLead hgap hgap' (c := c)
  have htail := fun {c} => not_mem_prefixTail hgap'' (c := c)
  have htext : before ++
      prefixAssignment gap gap' (placeholder ++ [separator, separator]) gap'' ++ ';' :: after =
      before ++ '$' :: (prefixLead gap gap' ++
        (placeholder ++ (prefixTail gap'' ++ ';' :: after))) := by
    simp [prefixAssignment_eq]
  have hwritten : ∀ m : Mark, '$' ∉ m.written := by
    intro m
    cases m <;> decide
  rw [htext, cells_append_char hwritten (by decide),
    cells_append_of_not_mem (hlead (by decide) (by decide)) (hlead (by decide) (by decide)),
    cells_placeholder_append,
    cells_append_of_not_mem (htail (by decide) (by decide)) (htail (by decide) (by decide))]

/-! ### Passes -/

namespace Shape

omit hgap hgap' hgap'' in
/-- Behind a quote only the shape of the assignment recognises anything. -/
theorem recognises_behind_quote {s : Shape} (hs : s ≠ .loaderLiteral) (before after : List Cell) :
    s.recognises (.char '\'' :: before) after = false := by
  rw [Bool.eq_false_iff]
  intro h
  obtain ⟨c, rest, hback, hc⟩ := exists_lead_of_recognises h
  obtain ⟨rfl, -⟩ := List.cons.inj ((spellBack_cons _ _).symm.trans hback)
  revert hc
  cases s with
  | loaderLiteral => exact absurd rfl hs
  | declaration | importation | qualified | documented | escaped => decide

/-- In the assignment that shape does. -/
theorem recognises_prefixAssignment (before after : List Cell) :
    loaderLiteral.recognises (((prefixLead gap gap').map .char).reverse ++ .char '$' :: before)
      ((prefixTail gap'').map .char ++ .char ';' :: after) = true := by
  have hbefore : ((prefixLead gap gap').map Cell.char).reverse ++ .char '$' :: before =
      .char '\'' :: (gap'.reverse.map .char ++ .char '=' :: (gap.reverse.map .char ++
        (prefixVariable.reverse.map .char ++ .char '$' :: before))) := by
    simp [prefixLead]
  refine recognisesLoaderLiteral_iff.2 ⟨_, gap''.map .char ++ .char ';' :: after, hbefore, rfl,
    ⟨after, dropWhile_isBlank_blanks hgap'' (by decide) after⟩, _,
    dropWhile_isBlank_blanks hgap'.reverse (by decide) _, ?_⟩
  have hword : prefixVariable.reverse.map Cell.char ++ .char '$' :: before =
      .char 'x' :: ("$prefi".toList.reverse.map .char ++ before) := rfl
  rw [hword, dropWhile_isBlank_blanks hgap.reverse (by decide)]
  rfl

/-- A pass over a loader that assigns the placeholder, or that has a mark in its place. -/
theorem stage_prefixAssignment {s : Shape} (hs : s ≠ .documented) (u v : List Cell) (c : Cell) :
    s.stage (u ++ .char '$' :: ((prefixLead gap gap').map .char ++
        c :: ((prefixTail gap'').map .char ++ .char ';' :: v))) =
      s.stage u ++ .char '$' :: ((prefixLead gap gap').map .char ++
        (if c = .name ∧ s = .loaderLiteral then .mark .doubled else c) ::
          ((prefixTail gap'').map .char ++ s.stage (.char ';' :: v))) := by
  have hsemicolon : ∀ back, s.stageFrom back (.char ';' :: v) = s.stage (.char ';' :: v) := by
    intro back
    rw [stage, stageFrom, stageFrom, if_neg (by simp), if_neg (by simp),
      stageFrom_below_semicolon hs]
  have hstop : StopAhead (.char '$' :: ((prefixLead gap gap').map .char ++
      c :: ((prefixTail gap'').map .char ++ .char ';' :: v))) [] := ⟨by simp, by simp, rfl⟩
  rw [stage, s.stageFrom_append_of_stop hstop, stageFrom, if_neg (by simp),
    stageFrom_map_char_append, stageFrom, stageFrom_map_char_append, hsemicolon]
  congr 4
  by_cases hliteral : s = .loaderLiteral
  · subst hliteral
    rw [List.append_nil, recognises_prefixAssignment hgap hgap' hgap'']
    simp [mark]
  · have hquote := recognises_behind_quote hliteral
    have hlead : ∀ back : List Cell, ((prefixLead gap gap').map Cell.char).reverse ++ back =
        .char '\'' :: (((prefixVariable ++ gap ++ '=' :: gap').map Cell.char).reverse ++ back) := by
      simp [prefixLead]
    rw [hlead, hquote, if_neg (by simp), if_neg (fun h => hliteral h.2)]

end Shape

/-- All passes over such a loader. -/
theorem stageAll_prefixAssignment {shapes : List Shape} (hdoc : .documented ∉ shapes)
    (u v : List Cell) (c : Cell) :
    stageAll shapes (u ++ .char '$' :: ((prefixLead gap gap').map .char ++
        c :: ((prefixTail gap'').map .char ++ .char ';' :: v))) =
      stageAll shapes u ++ .char '$' :: ((prefixLead gap gap').map .char ++
        (if c = .name ∧ .loaderLiteral ∈ shapes then .mark .doubled else c) ::
          ((prefixTail gap'').map .char ++ stageAll shapes (.char ';' :: v))) := by
  induction shapes generalizing u v c with
  | nil => simp [stageAll]
  | cons s shapes ih =>
    rw [List.mem_cons, not_or] at hdoc
    have hstay : s.stage (.char ';' :: v) = .char ';' :: s.stageFrom [.char ';'] v := by
      rw [Shape.stage, Shape.stageFrom, if_neg (by simp)]
    have hrest : ∀ cells, stageAll (s :: shapes) cells = stageAll shapes (s.stage cells) :=
      fun cells => List.foldl_cons ..
    rw [hrest, hrest, hrest, Shape.stage_prefixAssignment hgap hgap' hgap'' (Ne.symm hdoc.1), hstay,
      ih hdoc.2]
    congr 4
    by_cases hname : c = .name
    · by_cases hs : s = .loaderLiteral
      · simp [hname, hs]
      · simp [hname, hs, Ne.symm hs]
    · simp [hname]

/-! ### A branded loader -/

/-- Where a loader assigns the placeholder it assigns the target once it is branded, with the same
blanks, and what stands on either side is branded by itself. -/
theorem brandLoader_prefixAssignment (b : Brand) (before after : List Char) :
    brandLoader b (before ++
        prefixAssignment gap gap' (placeholder ++ [separator, separator]) gap'' ++ ';' :: after) =
      brandLoader b before ++
        prefixAssignment gap gap' (b.doubledTarget ++ [separator, separator]) gap'' ++
          brandLoader b (';' :: after) := by
  have hafter : cells (';' :: after) = .char ';' :: cells after :=
    cells_cons (by decide) (by decide) after
  rw [brandLoader, brandLoader, brandLoader, brandShapes, brandShapes, brandShapes,
    cells_prefixAssignment hgap hgap' hgap'', hafter,
    stageAll_prefixAssignment hgap hgap' hgap'' (by decide), if_pos ⟨rfl, by decide⟩,
    prefixAssignment_eq]
  simp [Cell.expand, expand_map_char, Brand.doubledTarget]

end Blank

end Branding
