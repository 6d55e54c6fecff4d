import Branding.Proofs.Source.Sites

/-!
# Branding inserts the brand

Branding runs its shapes one after another, and each runs over what the earlier ones have left. For
a text in which no occurrence of the placeholder is glued to the next one by separators that order
does not show: which occurrences are references can be read off the text as it was, and branding
puts the brand in front of these and changes nothing else.

The passes are followed by `claimBy`, which claims occurrences by a verdict on the text alone. One
pass over cells that were claimed by a verdict claims what the verdict or the shape says, and so
the passes add up to the verdict of the first shape that fits.

## Main definitions

* `claimBy` — cells with occurrences claimed by a verdict on the text around them
* `verdictOf` — the verdict of the first of several shapes that fits
* `Brand.inFront` — what a brand puts in front of an occurrence

## Main results

* `stageAll_nameCells` — passes add up to a verdict
* `brandModule_eq_graft` — branding puts the brand in front of the references
-/

namespace Branding

/-! ### Claiming by a verdict -/

/-- A cell claimed, if it is an unclaimed occurrence and the verdict says how. -/
def Cell.claim (verdict : Option Mark) : Cell → Cell
  | .name => verdict.elim .name .mark
  | c => c

theorem Cell.expand_claim (verdict : Option Mark) (c : Cell) :
    (c.claim verdict).expand placeholder = c.expand placeholder := by
  match c, verdict with
  | .char _, _ | .mark _, _ | .name, none | .name, some .plain | .name, some .doubled => rfl

/-- Cells with occurrences claimed by a verdict on the text before and the text after. -/
def claimBy (verdict : List Char → List Char → Option Mark) :
    (before : List Char) → List Cell → List Cell
  | _, [] => []
  | before, c :: cells =>
    c.claim (verdict before (Branding.expand placeholder cells)) ::
      claimBy verdict (before ++ c.expand placeholder) cells

theorem expand_claimBy (verdict : List Char → List Char → Option Mark) (before : List Char)
    (cells : List Cell) :
    expand placeholder (claimBy verdict before cells) = expand placeholder cells := by
  induction cells generalizing before with
  | nil => rfl
  | cons c cells ih => rw [claimBy, expand_cons, expand_cons, Cell.expand_claim, ih]

theorem claimBy_none (before : List Char) (cells : List Cell) :
    claimBy (fun _ _ => none) before cells = cells := by
  induction cells generalizing before with
  | nil => rfl
  | cons c cells ih =>
    rw [claimBy, ih]
    cases c <;> rfl

/-! ### One pass -/

/-- No two occurrences of the placeholder have as many separators and nothing else between them. -/
def Unglued (count : Nat) (text : List Char) : Prop :=
  ¬ placeholder ++ List.replicate count separator ++ placeholder <:+: text

theorem markFree_of_unglued {count : Nat} {before after : List Cell}
    (h : Unglued count
      (expand placeholder before.reverse ++ placeholder ++ expand placeholder after)) :
    Shape.MarkFree count before after := by
  intro m rest
  constructor
  · rintro rfl
    refine h ⟨expand placeholder rest.reverse, expand placeholder after, ?_⟩
    simp [expand_replicate_char, Cell.expand_mark_placeholder]
  · rintro rfl
    refine h ⟨expand placeholder before.reverse, expand placeholder rest, ?_⟩
    simp [expand_replicate_char, Cell.expand_mark_placeholder]

/-- One pass over cells that were claimed by a verdict claims what the verdict or the shape says. -/
theorem stageFrom_claimBy {s : Shape} (hs : s ∈ moduleShapes)
    (verdict : List Char → List Char → Option Mark) (before : List Cell) {cells : List Cell}
    (hone : Unglued 1 (expand placeholder before.reverse ++ expand placeholder cells))
    (htwo : Unglued 2 (expand placeholder before.reverse ++ expand placeholder cells))
    (hmark : ∀ m, .mark m ∉ cells) :
    s.stageFrom before (claimBy verdict (expand placeholder before.reverse) cells) =
      claimBy (fun b a => (verdict b a).or (if s.fits b a then some s.mark else none))
        (expand placeholder before.reverse) cells := by
  induction cells generalizing before with
  | nil => rfl
  | cons c cells ih =>
    have hnext : ∀ d : Cell, d.expand placeholder = c.expand placeholder →
        expand placeholder before.reverse ++ c.expand placeholder =
          expand placeholder (d :: before).reverse := by
      intro d hd
      simp [hd]
    rw [claimBy, claimBy, Shape.stageFrom]
    congr 1
    · cases c with
      | char a => simp [Cell.claim]
      | mark m => exact absurd List.mem_cons_self (hmark m)
      | name =>
        cases hverdict : verdict (expand placeholder before.reverse) (expand placeholder cells) with
        | some m => simp [Cell.claim]
        | none =>
          have hfits : s.recognises before
              (claimBy verdict (expand placeholder before.reverse ++ placeholder) cells) =
              s.fits (expand placeholder before.reverse) (expand placeholder cells) := by
            rw [Shape.recognises_eq_fits hs, expand_claimBy]
            · refine markFree_of_unglued ?_
              rwa [expand_claimBy, List.append_assoc]
            · refine markFree_of_unglued ?_
              rwa [expand_claimBy, List.append_assoc]
          simp only [Cell.claim, Option.elim_none, true_and, Option.none_or, Cell.expand, hfits]
          split <;> rfl
    · rw [hnext _ (Cell.expand_claim _ c)]
      refine ih _ ?_ ?_ fun m hm => hmark m (List.mem_cons_of_mem _ hm)
      · simpa [Cell.expand_claim] using hone
      · simpa [Cell.expand_claim] using htwo

/-! ### All passes -/

/-- The verdict of the first of several shapes that fits. -/
def verdictOf (shapes : List Shape) (before after : List Char) : Option Mark :=
  (shapes.find? (·.fits before after)).map Shape.mark

theorem verdictOf_cons (s : Shape) (shapes : List Shape) (before after : List Char) :
    verdictOf (s :: shapes) before after =
      (if s.fits before after then some s.mark else none).or (verdictOf shapes before after) := by
  rw [verdictOf, List.find?_cons]
  split <;> simp_all [verdictOf]

theorem stageAll_claimBy {shapes : List Shape} (hshapes : shapes ⊆ moduleShapes)
    (verdict : List Char → List Char → Option Mark) {cells : List Cell}
    (hone : Unglued 1 (expand placeholder cells)) (htwo : Unglued 2 (expand placeholder cells))
    (hmark : ∀ m, .mark m ∉ cells) :
    stageAll shapes (claimBy verdict [] cells) =
      claimBy (fun b a => (verdict b a).or (verdictOf shapes b a)) [] cells := by
  induction shapes generalizing verdict with
  | nil =>
    simp only [verdictOf, List.find?_nil, Option.map_none, Option.or_none]
    rfl
  | cons s shapes ih =>
    rw [List.cons_subset] at hshapes
    have hpass : s.stage (claimBy verdict [] cells) =
        claimBy (fun b a => (verdict b a).or (if s.fits b a then some s.mark else none)) [] cells :=
      stageFrom_claimBy hshapes.1 verdict [] hone htwo hmark
    rw [stageAll, List.foldl_cons, ← stageAll, hpass, ih hshapes.2]
    simp only [Option.or_assoc, ← verdictOf_cons]

/-- Passes add up: an occurrence is claimed by the first shape that fits the text around it. -/
theorem stageAll_nameCells {shapes : List Shape} (hshapes : shapes ⊆ moduleShapes)
    {text : List Char} (hone : Unglued 1 text) (htwo : Unglued 2 text) :
    stageAll shapes (nameCells text) = claimBy (verdictOf shapes) [] (nameCells text) := by
  have h : stageAll shapes (claimBy (fun _ _ => none) [] (nameCells text)) = _ :=
    stageAll_claimBy hshapes (fun _ _ => none) (by rwa [expand_nameCells])
      (by rwa [expand_nameCells]) (mark_not_mem_nameCells · text)
  simpa only [claimBy_none, Option.none_or] using h

/-! ### What is put in front -/

/-- What stands before the placeholder in the target, as code and inside a literal. -/
def Brand.inFront (b : Brand) : Mark → List Char
  | .plain => b.name.toList ++ [separator]
  | .doubled => b.name.toList ++ [separator, separator]

theorem doubleSeparators_of_not_mem {text : List Char} (h : separator ∉ text) :
    doubleSeparators text = text := by
  induction text with
  | nil => rfl
  | cons c text ih =>
    rw [List.mem_cons, not_or] at h
    rw [← List.singleton_append, doubleSeparators_append, ih h.2]
    simp [doubleSeparators, Ne.symm h.1]

/-- The characters of a brand are name characters. -/
theorem Brand.isNameChar_of_mem (b : Brand) {c : Char} (h : c ∈ b.name.toList) :
    isNameChar c = true := by
  have hname := b.identifier
  cases hb : b.name.toList with
  | nil => simp [hb] at h
  | cons a rest =>
    rw [hb, isIdentifier, Bool.and_eq_true, List.all_eq_true] at hname
    rw [hb, List.mem_cons] at h
    rcases h with rfl | h
    · exact isNameChar_of_isNameStart hname.1
    · exact hname.2 c h

theorem Brand.separator_not_mem (b : Brand) : separator ∉ b.name.toList := by
  intro h
  exact absurd (b.isNameChar_of_mem h) (by decide)

/-- A claimed occurrence is written as the placeholder with something in front. -/
theorem Brand.expand_mark (b : Brand) (m : Mark) :
    (Cell.mark m).expand b.target = b.inFront m ++ placeholder := by
  cases m with
  | plain => simp [Cell.expand, target, inFront]
  | doubled =>
    have hsep : doubleSeparators (separator :: placeholder) =
        separator :: separator :: placeholder := rfl
    rw [Cell.expand, target, doubleSeparators_append,
      doubleSeparators_of_not_mem b.separator_not_mem, hsep]
    simp [inFront]

/-- Cells claimed by a verdict are written with something in front of what it claims. -/
theorem Brand.expand_claimBy (b : Brand) (verdict : List Char → List Char → Option Mark)
    (before text : List Char) :
    expand b.target (claimBy verdict before (nameCells text)) =
      graft (fun before after => (verdict before after).elim [] b.inFront) before text := by
  induction text using occurrence_induction generalizing before with
  | nil => rfl
  | occurrence text ih =>
    rw [nameCells_placeholder_append, graft_placeholder_append, claimBy, expand_cons, ← ih,
      expand_nameCells]
    congr 1
    cases verdict before text with
    | none => rfl
    | some m => exact b.expand_mark m
  | cons c text h ih =>
    rw [nameCells_cons h, graft_cons _ _ h, claimBy, expand_cons, ← ih]
    rfl

/-! ### Ordinary files -/

instance (before after : List Char) : Decidable (PlainSite before after) :=
  decidable_of_iff (Shape.declaration.fits before after = true ∨
      Shape.importation.fits before after = true ∨ Shape.qualified.fits before after = true ∨
        Shape.documented.fits before after = true) <| by
    rw [fits_declaration_iff, fits_importation_iff, fits_qualified_iff, fits_documented_iff,
      PlainSite]

instance (before after : List Char) : Decidable (EscapedSite before after) :=
  decidable_of_iff _ fits_escaped_iff

/-- The verdict on an ordinary file. -/
def siteMark (before after : List Char) : Option Mark :=
  if PlainSite before after then some .plain
  else if EscapedSite before after then some .doubled
  else none

theorem verdictOf_moduleShapes (before after : List Char) :
    verdictOf moduleShapes before after = siteMark before after := by
  have hplain : PlainSite before after ↔
      Shape.declaration.fits before after = true ∨ Shape.importation.fits before after = true ∨
        Shape.qualified.fits before after = true ∨ Shape.documented.fits before after = true := by
    rw [fits_declaration_iff, fits_importation_iff, fits_qualified_iff, fits_documented_iff,
      PlainSite]
  rw [siteMark, moduleShapes, verdictOf_cons, verdictOf_cons, verdictOf_cons, verdictOf_cons,
    verdictOf_cons, if_congr hplain rfl (if_congr fits_escaped_iff.symm rfl rfl)]
  cases Shape.declaration.fits before after <;> cases Shape.importation.fits before after <;>
    cases Shape.qualified.fits before after <;> cases Shape.documented.fits before after <;>
    cases Shape.escaped.fits before after <;> rfl

/-- Branding an ordinary file puts the brand and a separator in front of the references written as
code, the brand and two separators in front of those written inside a literal, and changes nothing
else. What is a reference is decided by the text as it was. -/
theorem brandModule_eq_graft (b : Brand) {text : List Char} (hnul : '\x00' ∉ text)
    (hone : ¬ placeholder ++ [separator] ++ placeholder <:+: text)
    (htwo : ¬ placeholder ++ [separator, separator] ++ placeholder <:+: text) :
    brandModule b text =
      graft (fun before after =>
        if PlainSite before after then b.name.toList ++ [separator]
        else if EscapedSite before after then b.name.toList ++ [separator, separator]
        else []) [] text := by
  rw [brandModule, brandShapes, cells_eq_nameCells hnul,
    stageAll_nameCells (List.Subset.refl _) hone htwo, b.expand_claimBy]
  congr 1
  funext before after
  rw [verdictOf_moduleShapes, siteMark]
  split
  · rfl
  · split <;> rfl

/-- A declaration, a reference inside a literal, and a lookalike that is none. -/
theorem brandModule_eq_graft_lookalike :
    '\x00' ∉ "namespace WPLite;\n'\\\\WPLite\\\\A' WPLite\\A".toList ∧
      ¬ placeholder ++ [separator] ++ placeholder <:+:
        "namespace WPLite;\n'\\\\WPLite\\\\A' WPLite\\A".toList ∧
      ¬ placeholder ++ [separator, separator] ++ placeholder <:+:
        "namespace WPLite;\n'\\\\WPLite\\\\A' WPLite\\A".toList ∧
      brandModule ⟨"Acme", by decide⟩ "namespace WPLite;\n'\\\\WPLite\\\\A' WPLite\\A".toList =
        "namespace Acme\\WPLite;\n'\\\\Acme\\\\WPLite\\\\A' WPLite\\A".toList := by
  refine ⟨by decide, by decide, by decide, ?_⟩
  rw [brandModule_eq_graft _ (by decide) (by decide) (by decide)]
  decide

end Branding
