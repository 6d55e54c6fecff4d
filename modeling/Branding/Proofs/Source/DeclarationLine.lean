import Branding.Proofs.Source.Declared
import Mathlib.Data.List.Chain
import Mathlib.Data.List.Pairwise

/-!
# The line that declares a file's namespace

The passes are followed over the line of a declaration, whatever stands before and after it. The
first pass claims the placeholder behind the keyword. On the rest of the line there is no blank, no
quote, no doubled separator and no documentation tag in reach, so only the shape of qualified
references could recognise anything there. It wants a free place before the separator, and the only
one is behind the mark.

## Main definitions

* `declarationLine` — the line that declares segments behind the placeholder
* `Declaring` — cells with such a line among them
* `Brand.declaredSegments` — the segments behind the target that a branded file declares

## Main results

* `declaring_stageAll` — the line after all passes
* `declaredNamespace?_brandModule` — what a branded file declares
-/

namespace Branding

/-- The keyword of a declaration and a blank. -/
def declarationKeyword : List Char := "namespace".toList ++ [' ']

/-- The line that declares segments behind the placeholder. -/
def declarationLine (segments : List (List Char)) : List Char :=
  declarationKeyword ++ placeholder ++ subspace segments ++ [';']

/-! ### Before an occurrence on the line -/

namespace Shape

/-- A shape that is not that of qualified references recognises nothing on a line without an at
sign, where neither a blank nor a quote nor two separators come before. -/
theorem recognises_eq_false_of_line {s : Shape} (hs : s ≠ .qualified) {lead line : List Char}
    (hlead : EndsAtLineStart lead) (hline : '@' ∉ line)
    (hlast : ∃ front c, line = front ++ [c] ∧ isBlank c = false ∧ c ≠ '\'')
    (hsep : ¬ [separator, separator] <:+ line) {before : List Cell}
    (hbefore : expand placeholder before.reverse = lead ++ line) (after : List Cell) :
    s.recognises before after = false := by
  rw [Bool.eq_false_iff]
  intro h
  obtain ⟨front, c, rfl, hblank, hquote⟩ := hlast
  have hspell : spellBack before = c :: (lead ++ front).reverse := by
    rw [spellBack, hbefore]
    simp
  have hleads := leads_of_recognises h
  rw [hspell] at hleads
  cases s with
  | qualified => exact hs rfl
  | declaration | importation =>
    obtain ⟨⟨a, rest, ha, hblank'⟩, -⟩ := hleads
    obtain ⟨rfl, -⟩ := List.cons.inj ha
    rw [hblank] at hblank'
    cases hblank'
  | loaderLiteral =>
    obtain ⟨rest, hrest⟩ := hleads
    exact hquote (List.cons.inj hrest).1
  | escaped =>
    obtain ⟨rest, hrest⟩ := hleads
    obtain ⟨rfl, hback⟩ := List.cons.inj hrest
    rcases List.eq_nil_or_concat front with rfl | ⟨front, a, rfl⟩
    · rw [List.append_nil] at hback
      rcases hlead with rfl | ⟨lead, rfl⟩
      · cases hback
      · rw [List.reverse_append] at hback
        exact absurd (List.cons.inj hback).1 (by decide)
    · rw [List.concat_eq_append, ← List.append_assoc, List.reverse_append] at hback
      obtain rfl : a = separator := (List.cons.inj hback).1
      exact hsep ⟨front, by simp⟩
  | documented =>
    obtain ⟨b, a, rfl, -, hdoc⟩ := recognisesDocumented_iff.1 h
    rw [spellBack_cons] at hspell
    have hb : spellBack b = (lead ++ front).reverse := (List.cons.inj hspell).2
    rw [← afterDocTag_spellBack, hb, afterDocTag_of_line hlead] at hdoc
    · cases hdoc
    · exact fun hmem => hline (List.mem_append_left _ hmem)

end Shape

/-! ### The characters of a path -/

theorem isNameChar_of_isIdentifier {segment : List Char} (h : isIdentifier segment = true) :
    ∀ c ∈ segment, isNameChar c = true := by
  cases segment with
  | nil => cases h
  | cons a segment =>
    rw [isIdentifier, Bool.and_eq_true, List.all_eq_true] at h
    rw [List.forall_mem_cons]
    exact ⟨isNameChar_of_isNameStart h.1, h.2⟩

theorem separator_not_mem_of_isIdentifier {segment : List Char} (h : isIdentifier segment = true) :
    separator ∉ segment :=
  fun hmem => absurd (isNameChar_of_isIdentifier h _ hmem) (by decide)

section Subspace

variable {segments : List (List Char)} (hsegments : ∀ s ∈ segments, isIdentifier s = true)

include hsegments

theorem isNameChar_or_separator_of_mem_subspace {c : Char} (h : c ∈ subspace segments) :
    isNameChar c = true ∨ c = separator := by
  obtain ⟨segment, hmem, hc⟩ := List.mem_flatMap.1 h
  rcases List.mem_cons.1 hc with rfl | hc
  · exact Or.inr rfl
  · exact Or.inl (isNameChar_of_isIdentifier (hsegments _ hmem) c hc)

/-- Segments are not empty, so no two separators stand side by side. -/
theorem isChain_subspace :
    (subspace segments).IsChain fun a b => ¬(a = separator ∧ b = separator) := by
  induction segments with
  | nil => exact .nil
  | cons segment segments ih =>
    rw [List.forall_mem_cons] at hsegments
    have hfree := separator_not_mem_of_isIdentifier hsegments.1
    rw [subspace_cons, List.isChain_append]
    refine ⟨?_, ih hsegments.2, ?_⟩
    · refine List.Pairwise.isChain (List.pairwise_cons.2 ⟨?_, ?_⟩)
      · rintro b hb ⟨-, rfl⟩
        exact hfree hb
      · exact List.pairwise_of_forall_mem_list fun a ha b _ hab => hfree (hab.1 ▸ ha)
    · rintro a ha b - ⟨rfl, -⟩
      have hmem : separator ∈ segment := by
        obtain ⟨c, segment, rfl⟩ := List.exists_cons_of_ne_nil (l := segment) (by
          rintro rfl
          cases hsegments.1)
        rw [Option.mem_def, List.getLast?_cons_cons] at ha
        exact List.mem_of_getLast? ha
      exact hfree hmem

/-- What stands before an occurrence on the line of a declaration. -/
theorem line_before_occurrence {path rest : List Char} (hpath : path ++ rest = subspace segments) :
    '@' ∉ declarationKeyword ++ placeholder ++ path ∧
      (∃ front c, declarationKeyword ++ placeholder ++ path = front ++ [c] ∧ isBlank c = false ∧
        c ≠ '\'') ∧
      ¬ [separator, separator] <:+ declarationKeyword ++ placeholder ++ path := by
  have hchar : ∀ c ∈ path, isNameChar c = true ∨ c = separator := fun c hc =>
    isNameChar_or_separator_of_mem_subspace hsegments (hpath ▸ List.mem_append_left rest hc)
  refine ⟨?_, ?_, ?_⟩
  · rw [List.mem_append, not_or]
    exact ⟨by decide, fun hmem => absurd (hchar _ hmem) (by decide)⟩
  · rcases List.eq_nil_or_concat path with rfl | ⟨path, c, rfl⟩
    · exact ⟨declarationKeyword ++ ['W', 'P', 'L', 'i', 't'], 'e', by decide, by decide, by decide⟩
    · refine ⟨declarationKeyword ++ placeholder ++ path, c, by simp, ?_, ?_⟩
      · rcases hchar c (by simp) with h | rfl
        · exact isBlank_eq_false_of_isNameChar h
        · decide
      · rintro rfl
        exact absurd (hchar '\'' (by simp)) (by decide)
  · rintro ⟨front, hfront⟩
    rcases List.eq_nil_or_concat path with rfl | ⟨path, c, rfl⟩
    · have hlast := congrArg List.getLast? hfront
      rw [List.append_nil, List.getLast?_append_of_ne_nil _ (by simp),
        List.getLast?_append_of_ne_nil _ (by decide)] at hlast
      exact absurd hlast (by decide)
    · rcases List.eq_nil_or_concat path with rfl | ⟨path, a, rfl⟩
      · have hlast : front ++ [separator] ++ [separator] =
            declarationKeyword ++ placeholder ++ [c] := by simpa using hfront
        have hlast := congrArg List.getLast? (List.append_singleton_inj.1 hlast).1
        rw [List.getLast?_append_of_ne_nil _ (by simp),
          List.getLast?_append_of_ne_nil _ (by decide)] at hlast
        exact absurd hlast (by decide)
      · have hlast : front ++ [separator] ++ [separator] =
            (declarationKeyword ++ placeholder ++ path ++ [a]) ++ [c] := by simpa using hfront
        obtain ⟨hinner, rfl⟩ := List.append_singleton_inj.1 hlast
        obtain rfl : separator = a := (List.append_singleton_inj.1 hinner).2
        have hchain := isChain_subspace hsegments
        have hinfix : [separator, separator] <:+: subspace segments :=
          ⟨path, rest, by rw [← hpath]; simp⟩
        have hpair := List.IsChain.infix hchain hinfix
        exact absurd hpair (by simp)

end Subspace

/-! ### The line through the passes -/

/-- Cells that hold a declaration: `before` is the text before its line, `head` the cell of the
placeholder, `path` the cells from there to the semicolon. -/
def Declaring (before : List Char) (head : Cell) (path cells : List Cell) : Prop :=
  ∃ front rest, expand placeholder front = before ∧
    cells = front ++ (declarationKeyword.map .char ++ head :: (path ++ .char ';' :: rest))

theorem expand_map_char (target text : List Char) : expand target (text.map .char) = text := by
  induction text with
  | nil => rfl
  | cons c text ih =>
    rw [List.map_cons, expand_cons, ih]
    rfl

/-- A pass over the front of a declaration. -/
theorem exists_stage_eq_of_declaring (s : Shape) (front rest path : List Cell) (head : Cell) :
    ∃ front', expand placeholder front' = expand placeholder front ∧
      s.stage (front ++ (declarationKeyword.map .char ++ head :: (path ++ .char ';' :: rest))) =
        front' ++ (declarationKeyword.map .char ++
          (if head = .name ∧
              s.recognises ((declarationKeyword.map .char).reverse ++ front.reverse)
                (path ++ .char ';' :: rest) then .mark s.mark else head) ::
            s.stageFrom (head :: ((declarationKeyword.map .char).reverse ++ front.reverse))
              (path ++ .char ';' :: rest)) := by
  obtain ⟨front', hclaimed, hfront⟩ := s.exists_stageFrom_append [] front
    (declarationKeyword.map .char ++ head :: (path ++ .char ';' :: rest))
  have hkeyword : ∀ lead tail : List Cell, declarationKeyword.map .char = lead ++ .name :: tail →
      s.recognises (lead.reverse ++ (front.reverse ++ []))
        (tail ++ head :: (path ++ .char ';' :: rest)) = false := by
    intro lead tail h
    have hmem : Cell.name ∈ declarationKeyword.map .char := h ▸ by simp
    simp at hmem
  refine ⟨front', hclaimed.expand_eq, ?_⟩
  rw [Shape.stage, hfront, Shape.stageFrom_append_of_unrecognised hkeyword, Shape.stageFrom,
    List.append_nil]

section Passes

variable {before : List Char} (hbefore : EndsAtLineStart before) {segments : List (List Char)}
  (hsegments : ∀ s ∈ segments, isIdentifier s = true)

include hbefore hsegments

/-- A shape that is not that of qualified references leaves the path of a declaration alone. -/
theorem stageFrom_path {s : Shape} (hs : s ≠ .qualified) {front path : List Cell} {head : Cell}
    (hhead : head.expand placeholder = placeholder) (hfront : expand placeholder front = before)
    (hpath : expand placeholder path = subspace segments) (rest : List Cell) :
    s.stageFrom (head :: ((declarationKeyword.map .char).reverse ++ front.reverse))
        (path ++ .char ';' :: rest) =
      path ++ s.stageFrom
        (path.reverse ++ head :: ((declarationKeyword.map .char).reverse ++ front.reverse))
          (.char ';' :: rest) := by
  refine Shape.stageFrom_append_of_unrecognised ?_
  rintro lead tail rfl
  rw [expand_append, expand_cons] at hpath
  obtain ⟨hat, hlast, hsep⟩ := line_before_occurrence hsegments hpath
  refine Shape.recognises_eq_false_of_line hs hbefore hat hlast hsep ?_ _
  simp [hhead, hfront, expand_map_char]

/-- The first pass claims the placeholder behind the keyword. -/
theorem Declaring.stage_declaration {path cells : List Cell}
    (hpath : expand placeholder path = subspace segments)
    (h : Declaring before .name path cells) :
    Declaring before (.mark .plain) path (Shape.declaration.stage cells) := by
  obtain ⟨front, rest, hfront, rfl⟩ := h
  obtain ⟨front', hfront', hstage⟩ :=
    exists_stage_eq_of_declaring .declaration front rest path .name
  have hrec : Shape.declaration.recognises ((declarationKeyword.map .char).reverse ++ front.reverse)
      (path ++ .char ';' :: rest) = true := by
    have htext : expand placeholder
        ((declarationKeyword.map Cell.char).reverse ++ front.reverse).reverse =
        before ++ "namespace".toList ++ [' '] := by
      simp only [List.reverse_append, List.reverse_reverse, expand_append, hfront, expand_map_char]
      exact (List.append_assoc ..).symm
    have hline : LineLed [] before :=
      ⟨before, [], hbefore, fun c hc => absurd hc List.not_mem_nil, (List.append_nil before).symm⟩
    have hblank : Blanks [' '] := fun c hc => by rw [List.mem_singleton.1 hc]; rfl
    have hend : ∃ c text, (c = ';' ∨ c = '\x7b' ∨ c = separator) ∧
        expand placeholder (path ++ .char ';' :: rest) = c :: text := by
      rw [expand_append, hpath, expand_cons, Cell.expand]
      cases segments with
      | nil => exact ⟨';', expand placeholder rest, by simp, by simp⟩
      | cons segment segments =>
        exact ⟨separator, segment ++ subspace segments ++ ';' :: expand placeholder rest, by simp,
          by simp⟩
    obtain ⟨c, text, hc, hafter⟩ := hend
    rw [Shape.declaration_recognises_eq_fits, fits_declaration_iff, htext, hafter]
    exact ⟨⟨before, [' '], hline, List.cons_ne_nil _ _, hblank, rfl⟩,
      [], c, text, fun c hc => absurd hc List.not_mem_nil, hc, rfl⟩
  rw [if_pos ⟨rfl, hrec⟩, stageFrom_path hbefore hsegments (by decide) rfl hfront hpath] at hstage
  exact ⟨front', _, hfront'.trans hfront, hstage⟩

/-- The shapes that come later leave it alone. -/
theorem Declaring.stage {s : Shape} (hs : s ≠ .qualified) {path cells : List Cell}
    (hpath : expand placeholder path = subspace segments) {m : Mark}
    (h : Declaring before (.mark m) path cells) :
    Declaring before (.mark m) path (s.stage cells) := by
  obtain ⟨front, rest, hfront, rfl⟩ := h
  obtain ⟨front', hfront', hstage⟩ := exists_stage_eq_of_declaring s front rest path (.mark m)
  rw [if_neg (fun h => Cell.noConfusion h.1), stageFrom_path hbefore hsegments hs
    (Cell.expand_mark_placeholder m) hfront hpath] at hstage
  exact ⟨front', _, hfront'.trans hfront, hstage⟩

end Passes

/-! ### The shape of qualified references on the line -/

/-- The segment right behind the placeholder repeats it, and another one follows. -/
def RepeatsPlaceholder (segments : List (List Char)) : Prop :=
  segments.head? = some placeholder ∧ 2 ≤ segments.length

instance (segments : List (List Char)) : Decidable (RepeatsPlaceholder segments) :=
  inferInstanceAs (Decidable (_ ∧ _))

theorem RepeatsPlaceholder.exists_eq {segments : List (List Char)}
    (h : RepeatsPlaceholder segments) :
    ∃ second more, segments = placeholder :: second :: more := by
  obtain ⟨hhead, hlength⟩ := h
  obtain ⟨rest, rfl⟩ := List.head?_eq_some_iff.1 hhead
  cases rest with
  | nil => simp at hlength
  | cons second more => exact ⟨second, more, rfl⟩

theorem head?_nameCells {c : Char} (hc : isNameStart c = true) (text : List Char) :
    (nameCells (c :: text)).head?.any Cell.startsName = true := by
  by_cases h : placeholder <+: c :: text
  · obtain ⟨rest, hrest⟩ := h
    rw [← hrest, nameCells_placeholder_append]
    rfl
  · rw [nameCells_cons h]
    exact hc

theorem nameCells_separator_cons (text : List Char) :
    nameCells (separator :: text) = .char separator :: nameCells text :=
  nameCells_cons (not_isPrefix_placeholder (by decide) text)

section Qualified

variable {segments : List (List Char)} (hsegments : ∀ s ∈ segments, isIdentifier s = true)

include hsegments

/-- Behind a mark, the first place on the path is the only free one. -/
theorem qualified_on_path {lead tail back rest : List Cell} {m : Mark}
    (hpath : nameCells (subspace segments) = lead ++ .name :: tail)
    (h : Shape.qualified.recognises (lead.reverse ++ .mark m :: back) (tail ++ .char ';' :: rest) =
      true) :
    lead = [.char separator] ∧ ∃ tail', tail = .char separator :: tail' := by
  obtain ⟨b, a, hb, ha, hname, hfree⟩ := Shape.recognisesQualified_iff.1 h
  have hchar : ∀ {c : Cell}, c ∈ lead → c = .name ∨
      ∃ x, c = .char x ∧ (isNameChar x = true ∨ x = separator) := by
    intro c hc
    refine (mem_nameCells (hpath ▸ List.mem_append_left _ hc)).imp_right ?_
    rintro ⟨x, hx, rfl⟩
    exact ⟨x, rfl, isNameChar_or_separator_of_mem_subspace hsegments hx⟩
  constructor
  · rcases List.eq_nil_or_concat lead with rfl | ⟨lead, c, rfl⟩
    · cases (List.cons.inj hb).1
    rw [List.concat_eq_append] at hb hchar ⊢
    rw [List.reverse_append] at hb
    obtain ⟨rfl, rfl⟩ := List.cons.inj hb
    rcases List.eq_nil_or_concat lead with rfl | ⟨lead, d, rfl⟩
    · rfl
    · have hd : standsFree (d :: (lead.reverse ++ .mark m :: back)) = false := by
        rcases hchar (c := d) (by simp) with rfl | ⟨x, rfl, hx | rfl⟩
        · rfl
        · exact standsFree_namePart (c := .char x) hx _
        · rfl
      simp [hd] at hfree
  · cases tail with
    | nil => exact absurd (Cell.char.inj (List.cons.inj ha).1) (by decide)
    | cons c tail =>
      obtain ⟨rfl, -⟩ := List.cons.inj ha
      exact ⟨tail, rfl⟩

theorem repeatsPlaceholder_of_nameCells {tail : List Cell}
    (hpath : nameCells (subspace segments) = .char separator :: .name :: .char separator :: tail) :
    RepeatsPlaceholder segments := by
  have htext : subspace segments =
      separator :: (placeholder ++ separator :: expand placeholder tail) := by
    rw [← expand_nameCells placeholder (subspace segments), hpath]
    rfl
  cases segments with
  | nil => cases htext
  | cons first more =>
    rw [List.forall_mem_cons] at hsegments
    rw [subspace_cons, List.cons_append, List.cons.injEq] at htext
    have hfirst : first = placeholder ∧ subspace more = separator :: expand placeholder tail := by
      rcases List.append_eq_append_iff.1 htext.2 with ⟨part, hpart, hrest⟩ | ⟨part, hpart, hrest⟩
      · cases part with
        | nil => exact ⟨(hpart.trans (List.append_nil _)).symm, hrest⟩
        | cons c part =>
          have hc : separator ∈ placeholder := by
            cases more with
            | nil => cases hrest
            | cons second more =>
              rw [subspace_cons, List.cons_append, List.cons_append] at hrest
              obtain ⟨rfl, -⟩ := List.cons.inj hrest
              exact hpart ▸ by simp
          exact absurd hc (by decide)
      · cases part with
        | nil => exact ⟨hpart.trans (List.append_nil _), hrest.symm⟩
        | cons c part =>
          obtain ⟨rfl, -⟩ := List.cons.inj hrest
          exact absurd (hpart ▸ by simp) (separator_not_mem_of_isIdentifier hsegments.1)
    rw [hfirst.1]
    refine ⟨rfl, ?_⟩
    cases more with
    | nil => cases hfirst.2
    | cons second more => simp

/-- The path of a declaration after the pass for qualified references. -/
def qualifiedPath (segments : List (List Char)) : List Cell :=
  if RepeatsPlaceholder segments then
    .char separator :: .mark .plain :: nameCells (subspace segments.tail)
  else nameCells (subspace segments)

/-- The pass for qualified references claims the first segment if it repeats the placeholder. -/
theorem stageFrom_qualified_path (back rest : List Cell) (m : Mark) :
    ∃ rest', Shape.qualified.stageFrom (.mark m :: back)
        (nameCells (subspace segments) ++ .char ';' :: rest) =
      qualifiedPath segments ++ .char ';' :: rest' := by
  by_cases h : RepeatsPlaceholder segments
  · rw [qualifiedPath, if_pos h]
    obtain ⟨second, more, rfl⟩ := h.exists_eq
    have hsecond := hsegments second (by simp)
    have hpath : nameCells (subspace (placeholder :: second :: more)) =
        .char separator :: .name :: nameCells (subspace (second :: more)) := by
      rw [subspace_cons, List.cons_append, nameCells_separator_cons, nameCells_placeholder_append]
    have hrec : Shape.qualified.recognises (.char separator :: .mark m :: back)
        (nameCells (subspace (second :: more)) ++ .char ';' :: rest) = true := by
      obtain ⟨c, text, rfl⟩ := List.exists_cons_of_ne_nil (l := second) (by
        rintro rfl
        cases hsecond)
      rw [isIdentifier, Bool.and_eq_true] at hsecond
      have hstart := head?_nameCells hsecond.1 (text ++ subspace more)
      rw [subspace_cons, List.cons_append, nameCells_separator_cons, List.cons_append]
      refine Shape.recognisesQualified_iff.2 ⟨.mark m :: back, _, rfl, rfl, ?_, rfl⟩
      cases hcells : nameCells (c :: (text ++ subspace more)) with
      | nil => rw [hcells] at hstart; cases hstart
      | cons d cells =>
        rw [hcells] at hstart
        rw [List.cons_append, hcells]
        exact hstart
    have hquiet : ∀ lead tail, nameCells (subspace (second :: more)) = lead ++ .name :: tail →
        Shape.qualified.recognises (lead.reverse ++ .name :: .char separator :: .mark m :: back)
          (tail ++ .char ';' :: rest) = false := by
      intro lead tail hsplit
      rw [Bool.eq_false_iff]
      intro hfound
      have hwhole : nameCells (subspace (placeholder :: second :: more)) =
          (.char separator :: .name :: lead) ++ .name :: tail := by
        rw [hpath, hsplit]
        rfl
      have hfound' : Shape.qualified.recognises
          ((.char separator :: .name :: lead).reverse ++ .mark m :: back)
            (tail ++ .char ';' :: rest) =
            true := by simpa using hfound
      cases (qualified_on_path hsegments hwhole hfound').1
    rw [hpath, List.cons_append, List.cons_append, Shape.stageFrom,
      if_neg (fun h => Cell.noConfusion h.1),
      Shape.stageFrom, if_pos ⟨rfl, hrec⟩, Shape.stageFrom_append_of_unrecognised hquiet]
    exact ⟨_, rfl⟩
  · rw [qualifiedPath, if_neg h, Shape.stageFrom_append_of_unrecognised]
    · exact ⟨_, rfl⟩
    · intro lead tail hsplit
      rw [Bool.eq_false_iff]
      intro hfound
      obtain ⟨rfl, tail, rfl⟩ := qualified_on_path hsegments hsplit hfound
      exact h (repeatsPlaceholder_of_nameCells hsegments hsplit)

theorem Declaring.stage_qualified {before : List Char} {cells : List Cell} {m : Mark}
    (h : Declaring before (.mark m) (nameCells (subspace segments)) cells) :
    Declaring before (.mark m) (qualifiedPath segments) (Shape.qualified.stage cells) := by
  obtain ⟨front, rest, hfront, rfl⟩ := h
  obtain ⟨front', hfront', hstage⟩ := exists_stage_eq_of_declaring .qualified front rest
    (nameCells (subspace segments)) (.mark m)
  obtain ⟨rest', hpath⟩ := stageFrom_qualified_path hsegments
    ((declarationKeyword.map .char).reverse ++ front.reverse) rest m
  rw [if_neg (fun h => Cell.noConfusion h.1), hpath] at hstage
  exact ⟨front', rest', hfront'.trans hfront, hstage⟩

end Qualified

theorem expand_qualifiedPath (segments : List (List Char)) :
    expand placeholder (qualifiedPath segments) = subspace segments := by
  unfold qualifiedPath
  split
  next h =>
    obtain ⟨second, more, rfl⟩ := h.exists_eq
    rw [expand_cons, expand_cons, expand_nameCells]
    rfl
  next => exact expand_nameCells placeholder _

/-! ### The line after all passes -/

/-- A text that holds a declaration, in cells. -/
theorem declaring_nameCells {before : List Char} (hbefore : EndsAtLineStart before)
    (segments : List (List Char)) (after : List Char) :
    Declaring before .name (nameCells (subspace segments))
      (nameCells (before ++ declarationLine segments ++ after)) := by
  have hline : nameCells (declarationLine segments ++ after) =
      declarationKeyword.map .char ++
        .name :: (nameCells (subspace segments) ++ .char ';' :: nameCells after) := by
    have htext : declarationLine segments ++ after =
        declarationKeyword ++ (placeholder ++ (subspace segments ++ ';' :: after)) := by
      simp [declarationLine]
    rw [htext, nameCells_append_of_not_mem (by decide), nameCells_placeholder_append,
      nameCells_append_cons (by decide)]
  refine ⟨nameCells before, nameCells after, expand_nameCells placeholder before, ?_⟩
  rw [List.append_assoc, ← hline]
  rcases hbefore with rfl | ⟨lead, rfl⟩
  · rfl
  · have hfeed : '\n' ∉ placeholder := by decide
    rw [List.append_assoc, List.singleton_append, nameCells_append_cons hfeed,
      nameCells_append_cons hfeed]
    simp

/-- After all passes the placeholder behind the keyword has been claimed, and on the path at most
the first segment has. -/
theorem declaring_stageAll {before : List Char} (hbefore : EndsAtLineStart before)
    {segments : List (List Char)} (hsegments : ∀ s ∈ segments, isIdentifier s = true)
    (after : List Char) :
    Declaring before (.mark .plain) (qualifiedPath segments)
      (stageAll moduleShapes (nameCells (before ++ declarationLine segments ++ after))) := by
  have hpath := expand_nameCells placeholder (subspace segments)
  have hpath' := expand_qualifiedPath segments
  have h := declaring_nameCells hbefore segments after
  have h := h.stage_declaration hbefore hsegments hpath
  have h := h.stage (s := .importation) hbefore hsegments (by decide) hpath
  have h := h.stage_qualified hsegments
  have h := h.stage (s := .documented) hbefore hsegments (by decide) hpath'
  exact h.stage (s := .escaped) hbefore hsegments (by decide) hpath'

/-! ### What a branded file declares -/

/-- The segments behind the target that a branded file declares. -/
def Brand.declaredSegments (b : Brand) (segments : List (List Char)) : List (List Char) :=
  if RepeatsPlaceholder segments then b.name.toList :: segments else segments

theorem expand_target_qualifiedPath (b : Brand) (segments : List (List Char)) :
    expand b.target (qualifiedPath segments) = subspace (b.declaredSegments segments) := by
  rw [qualifiedPath, Brand.declaredSegments]
  split
  next h =>
    obtain ⟨second, more, rfl⟩ := h.exists_eq
    rw [expand_cons, expand_cons, expand_nameCells, Cell.expand, Cell.expand, Brand.target]
    simp
  next => exact expand_nameCells b.target _

theorem declaredOnLine?_declaration {name : List Char} (hname : isIdentifier name = true)
    {segments : List (List Char)} (hsegments : ∀ s ∈ segments, isIdentifier s = true)
    (rest : List Char) :
    declaredOnLine? (declarationKeyword ++ (name ++ subspace segments ++ ';' :: rest)) =
      some (name ++ subspace segments) := by
  have hread := namespacePath?_append hname hsegments (c := ';') (by decide) (by decide) rest
  obtain ⟨c, text, htext, hblank, hsep⟩ : ∃ c text,
      name ++ subspace segments ++ ';' :: rest = c :: text ∧ isBlank c = false ∧ separator ≠ c := by
    cases name with
    | nil => cases hname
    | cons c name =>
      have hc := isNameChar_of_isIdentifier hname c (by simp)
      refine ⟨c, _, rfl, isBlank_eq_false_of_isNameChar hc, ?_⟩
      rintro rfl
      exact absurd hc (by decide)
  have hkeyword : ∀ text : List Char, (declarationKeyword ++ text).dropWhile isBlank =
      "namespace".toList ++ ' ' :: text := by
    intro text
    obtain ⟨first, word, hword, hfirst⟩ : ∃ first word, declarationKeyword = first :: word ∧
        isBlank first = false := ⟨'n', "amespace ".toList, by decide, by decide⟩
    rw [hword, List.cons_append, List.dropWhile_cons, if_neg (by simp [hfirst]), ← List.cons_append,
      ← hword]
    exact List.append_assoc ..
  have hpath : (c :: text).dropWhile isBlank = c :: text := by
    rw [List.dropWhile_cons, if_neg (by simp [hblank])]
  rw [htext] at hread ⊢
  rw [declaredOnLine?, hkeyword, afterWord?_append, Option.bind_eq_bind, Option.bind_some]
  show namespacePath? ((afterWord? ['\\'] ((c :: text).dropWhile isBlank)).getD
    ((c :: text).dropWhile isBlank)) = _
  rw [hpath, show afterWord? ['\\'] (c :: text) = none from if_neg hsep, Option.getD_none, hread]

/-- A declaration at the start of a line, behind lines that declare nothing, is the one that
counts. -/
theorem declaredNamespace?_declaration {before : List Char} (hbefore : EndsAtLineStart before)
    (hfirst : declaredNamespace? before = none) {name : List Char}
    (hname : isIdentifier name = true) {segments : List (List Char)}
    (hsegments : ∀ s ∈ segments, isIdentifier s = true) (rest : List Char) :
    declaredNamespace? (before ++
      (declarationKeyword ++ (name ++ subspace segments ++ ';' :: rest))) =
      some (name ++ subspace segments) := by
  obtain ⟨line, more, hline, rfl, hmore⟩ := exists_line_append rest
  have hfeed : '\n' ∉ declarationKeyword ++ (name ++ subspace segments ++ ';' :: line) := by
    have hname' : '\n' ∉ name := fun h =>
      absurd (isNameChar_of_isIdentifier hname _ h) (by decide)
    have hpath : '\n' ∉ subspace segments := fun h =>
      absurd (isNameChar_or_separator_of_mem_subspace hsegments h) (by decide)
    have hkeyword : '\n' ∉ declarationKeyword := by decide
    simp [hkeyword, hname', hpath, hline]
  have hhere := (declaredNamespace?_of_not_mem hfeed).trans
    (declaredOnLine?_declaration hname hsegments line)
  have hwhole : declaredNamespace?
      (declarationKeyword ++ (name ++ subspace segments ++ ';' :: (line ++ more))) =
        some (name ++ subspace segments) := by
    rcases hmore with rfl | ⟨more, rfl⟩
    · rwa [List.append_nil]
    · have hsplit :
          declarationKeyword ++ (name ++ subspace segments ++ ';' :: (line ++ '\n' :: more)) =
          declarationKeyword ++ (name ++ subspace segments ++ ';' :: line) ++
            '\n' :: more := by simp
      rw [hsplit, declaredNamespace?_append_newline, hhere, Option.some_or]
  rcases hbefore with rfl | ⟨lead, rfl⟩
  · exact hwhole
  · rw [declaredNamespace?_append_newline, Option.or_eq_none_iff] at hfirst
    rw [List.append_assoc, List.singleton_append, declaredNamespace?_append_newline, hfirst.1,
      Option.none_or, hwhole]

/-- Lines end where they end in the cells. -/
theorem endsAtLineStart_expand (target : List Char) {cells : List Cell}
    (h : EndsAtLineStart (expand placeholder cells)) : EndsAtLineStart (expand target cells) := by
  rcases List.eq_nil_or_concat cells with rfl | ⟨front, c, rfl⟩
  · exact Or.inl rfl
  rw [List.concat_eq_append, expand_append, expand_cons, expand_nil, List.append_nil] at h ⊢
  rcases c.char_or_opaque with ⟨a, rfl⟩ | ⟨hexpand, -⟩
  · rcases h with h | ⟨lead, h⟩
    · simp [Cell.expand] at h
    · obtain ⟨-, rfl⟩ := List.append_singleton_inj.1 h
      exact Or.inr ⟨_, rfl⟩
  · rw [hexpand] at h
    rcases h with h | ⟨lead, h⟩
    · simp [placeholder] at h
    · have hlast := congrArg List.getLast? h
      rw [List.getLast?_append_of_ne_nil _ (by decide),
        List.getLast?_append_of_ne_nil _ (by simp)] at hlast
      exact absurd hlast (by decide)

/-- A text whose first declaration is that of segments behind the placeholder declares, once it is
branded, these segments behind the target, but for a segment that repeats the placeholder. -/
theorem declaredNamespace?_brandModule (b : Brand) {before : List Char}
    (hbefore : EndsAtLineStart before) (hfirst : declaredNamespace? before = none)
    {segments : List (List Char)} (hsegments : ∀ s ∈ segments, isIdentifier s = true)
    {after : List Char} (hnul : '\x00' ∉ before ++ declarationLine segments ++ after) :
    declaredNamespace? (brandModule b (before ++ declarationLine segments ++ after)) =
      some (b.target ++ subspace (b.declaredSegments segments)) := by
  obtain ⟨front, rest, hfront, hcells⟩ := declaring_stageAll hbefore hsegments after
  have hdeclared : ∀ s ∈ placeholder :: b.declaredSegments segments, isIdentifier s = true := by
    rw [List.forall_mem_cons, Brand.declaredSegments]
    refine ⟨by decide, ?_⟩
    split
    · exact List.forall_mem_cons.2 ⟨b.identifier, hsegments⟩
    · exact hsegments
  have hlead : EndsAtLineStart (expand b.target front) :=
    endsAtLineStart_expand b.target (hfront ▸ hbefore)
  have hnone : declaredNamespace? (expand b.target front) = none := by
    rwa [declaredNamespace?_expand_eq_none_iff (fun _ => b.spells_target), hfront]
  have htext : brandModule b (before ++ declarationLine segments ++ after) =
      expand b.target front ++ (declarationKeyword ++
        (b.name.toList ++ subspace (placeholder :: b.declaredSegments segments) ++
          ';' :: expand b.target rest)) := by
    rw [brandModule, brandShapes, cells_eq_nameCells hnul, hcells]
    simp only [expand_append, expand_cons, expand_map_char, expand_target_qualifiedPath]
    simp [Cell.expand, Brand.target]
  rw [htext, declaredNamespace?_declaration hlead hnone b.identifier hdeclared]
  simp [Brand.target]

end Branding
