import Branding.Proofs.Source.Lines
import Branding.Proofs.Source.Kept
import Branding.Proofs.Source.Unreferenced
import Mathlib.Data.List.Find

/-!
# Declarations that branding spares

What a line declares and what is claimed on it are settled by two rules that do not agree. A line
declares the namespace behind the keyword, whatever comes after the name, and with or without a
separator in front of it. The occurrence there is claimed as a declaration only where a semicolon, a
brace or a separator follows on the same line, and only without a separator in front. So a file can
go on declaring the placeholder once it is branded: the brace that opens its namespace may stand on
the next line.

That is all that is spared. Below the placeholder a separator and a name follow, and then the
occurrence is claimed in either case: as a declaration, or as a qualified reference where a
separator stands in front. What is spared can be told from the end: a branded text holds no
reference, and what the marks are written as makes no difference to where the rule for declarations
applies.

## Main definitions

* `Continues` — a further segment follows
* `SparedLine` — a line that declares the placeholder, and to which the rule does not apply
* `declaringLine?` — the line that holds the first declaration of a text

## Main results

* `brandModule_lead_append` — the placeholder behind the keyword is claimed, or it stays
* `declaringLine?_brandModule` — branding does not move the first declaration
* `declaredNamespace?_brandModule_eq_placeholder_iff` — a branded file declares nothing below the
  placeholder, and the placeholder itself exactly where its declaration is spared
-/

namespace Branding

/-! ### The first segment of a namespace -/

/-- A separator and the beginning of a name. -/
def Continues (text : List Char) : Prop :=
  ∃ rest, text = separator :: rest ∧ rest.head?.any isNameStart = true

/-- A namespace up to its first separator. -/
def firstSegment (path : List Char) : List Char := path.takeWhile (· != separator)

theorem firstSegment_append {name tail : List Char} (hname : isIdentifier name = true)
    (htail : tail = [] ∨ ∃ path, tail = separator :: path) :
    firstSegment (name ++ tail) = name := by
  have hfree : ∀ c ∈ name, (c != separator) = true := by
    rintro c hc
    rw [bne_iff_ne]
    rintro rfl
    exact separator_not_mem_of_isIdentifier hname hc
  rw [firstSegment, List.takeWhile_append_of_pos hfree]
  rcases htail with rfl | ⟨path, rfl⟩ <;> simp

/-- A name is read as far as it goes. -/
theorem head?_of_afterName? {text name rest : List Char} (h : afterName? text = some (name, rest)) :
    ∀ c ∈ rest.head?, isNameChar c = false := by
  cases text with
  | nil => cases h
  | cons a text =>
    rw [afterName?] at h
    split at h
    next =>
      cases h
      intro c hc
      have hstop := List.head?_dropWhile_not isNameChar text
      rwa [Option.mem_def.1 hc] at hstop
    next => cases h

/-- A namespace goes on behind its first name exactly where a further segment follows. -/
theorem exists_namespacePath?_append {name rest : List Char} (hname : isIdentifier name = true)
    (hrest : ∀ c ∈ rest.head?, isNameChar c = false) :
    ∃ tail, namespacePath? (name ++ rest) = some (name ++ tail) ∧
      (tail = [] ∧ ¬ Continues rest ∨ (∃ path, tail = separator :: path) ∧ Continues rest) := by
  rw [namespacePath?_of_afterName? (afterName?_append hname hrest)]
  refine ⟨_, rfl, ?_⟩
  cases hafter : afterWord? [separator] rest with
  | none =>
    refine Or.inl ⟨rfl, ?_⟩
    rintro ⟨inner, rfl, -⟩
    exact absurd ((afterWord?_append [separator] inner).symm.trans hafter) nofun
  | some inner =>
    obtain rfl := afterWord?_eq_some_iff.1 hafter
    have hopens := isSome_namespacePath? inner
    rw [Option.bind_some]
    cases hpath : namespacePath? inner with
    | none =>
      rw [hpath] at hopens
      refine Or.inl ⟨rfl, ?_⟩
      rintro ⟨inner', hsame, hstart⟩
      obtain rfl : inner = inner' := (List.cons.inj hsame).2
      rw [← hopens] at hstart
      cases hstart
    | some path =>
      rw [hpath] at hopens
      exact Or.inr ⟨⟨path, rfl⟩, inner, rfl, hopens.symm⟩

/-- What a namespace is read from: its first segment, and what follows that. -/
theorem exists_rest_of_namespacePath? {text path : List Char}
    (h : namespacePath? text = some path) :
    ∃ rest, text = firstSegment path ++ rest ∧ (∀ c ∈ rest.head?, isNameChar c = false) ∧
      (path = firstSegment path ∧ ¬ Continues rest ∨ Continues rest) := by
  cases hafter : afterName? text with
  | none => rw [namespacePath?_of_afterName?_eq_none hafter] at h; cases h
  | some found =>
    obtain ⟨name, rest⟩ := found
    have hname := isIdentifier_of_afterName? hafter
    have hrest := head?_of_afterName? hafter
    obtain rfl := append_of_afterName? hafter
    obtain ⟨tail, hpath, htail⟩ := exists_namespacePath?_append hname hrest
    obtain rfl : name ++ tail = path := Option.some.inj (hpath.symm.trans h)
    have hfirst := firstSegment_append hname (htail.imp And.left And.left)
    refine ⟨rest, by rw [hfirst], hrest, ?_⟩
    rw [hfirst]
    exact htail.imp (fun h => ⟨by rw [h.1, List.append_nil], h.2⟩) And.right

theorem firstSegment_placeholder : firstSegment placeholder = placeholder := by decide

theorem namespacePath?_placeholder_append_iff {rest : List Char} :
    namespacePath? (placeholder ++ rest) = some placeholder ↔
      (∀ c ∈ rest.head?, isNameChar c = false) ∧ ¬ Continues rest := by
  have hname : isIdentifier placeholder = true := by decide
  constructor
  · intro h
    obtain ⟨rest', htext, hrest, hend⟩ := exists_rest_of_namespacePath? h
    rw [firstSegment_placeholder, List.append_cancel_left_eq] at htext
    subst htext
    refine ⟨hrest, fun hcontinues => ?_⟩
    obtain ⟨tail, hpath, ⟨-, hnot⟩ | ⟨⟨path, rfl⟩, -⟩⟩ := exists_namespacePath?_append hname hrest
    · exact hnot hcontinues
    · rw [h, Option.some.injEq, List.self_eq_append_right] at hpath
      cases hpath
  · rintro ⟨hrest, hend⟩
    obtain ⟨tail, hpath, ⟨rfl, -⟩ | ⟨-, hcontinues⟩⟩ := exists_namespacePath?_append hname hrest
    · rwa [List.append_nil] at hpath
    · exact absurd hcontinues hend

/-! ### What marks are written as -/

section Spelling

variable {target : List Char} (hspells : ∀ c : Cell, (∀ a, c ≠ .char a) → Spells target c)

include hspells

theorem exists_expand_eq_cons {c : Cell} (hc : ∀ a, c ≠ .char a) (cells : List Cell) :
    ∃ first rest, expand target (c :: cells) = first :: rest ∧ isNameStart first = true := by
  obtain ⟨first, rest, hfirst, hstart⟩ := (hspells c hc).exists_cons
  exact ⟨first, rest ++ expand target cells, by rw [expand_cons, hfirst, List.cons_append], hstart⟩

theorem head?_expand_iff (cells : List Cell) :
    (∀ c ∈ (expand target cells).head?, isNameChar c = false) ↔
      ∀ c ∈ (expand placeholder cells).head?, isNameChar c = false := by
  cases cells with
  | nil => exact Iff.rfl
  | cons c cells =>
    rcases c.char_or_opaque with ⟨a, rfl⟩ | ⟨-, -, -, -, hne⟩
    · exact Iff.rfl
    · have hc : ∀ a, c ≠ .char a := by simpa using hne
      obtain ⟨first, rest, hexpand, hfirst⟩ := exists_expand_eq_cons hspells hc cells
      obtain ⟨first', rest', hexpand', hfirst'⟩ :=
        exists_expand_eq_cons (fun _ => spells_placeholder) hc cells
      simp [hexpand, hexpand', isNameChar_of_isNameStart hfirst, isNameChar_of_isNameStart hfirst']

theorem continues_expand_iff (cells : List Cell) :
    Continues (expand target cells) ↔
      ∃ rest, cells = .char separator :: rest ∧ rest.head?.any Cell.opensName = true := by
  cases cells with
  | nil => simp [Continues]
  | cons c cells =>
    rcases c.char_or_opaque with ⟨a, rfl⟩ | ⟨-, -, -, -, hne⟩
    · simp [Continues, Cell.expand, ← head?_expand hspells]
    · obtain ⟨first, rest, hexpand, hfirst⟩ :=
        exists_expand_eq_cons hspells (by simpa using hne) cells
      refine iff_of_false ?_ ?_
      · rintro ⟨inner, hinner, -⟩
        rw [hexpand] at hinner
        obtain rfl := (List.cons.inj hinner).1
        exact absurd hfirst (by decide)
      · rintro ⟨inner, hinner, -⟩
        have hc := hne separator
        rw [(List.cons.inj hinner).1, beq_self_eq_true] at hc
        cases hc

theorem declarationEnd_expand_iff (cells : List Cell) :
    (∃ gap c rest, Blanks gap ∧ (c = ';' ∨ c = '\x7b' ∨ c = separator) ∧
        expand target cells = gap ++ c :: rest) ↔
      ∃ c rest, cells.dropWhile Cell.isBlank = .char c :: rest ∧
        (c = ';' ∨ c = '\x7b' ∨ c = separator) := by
  have hdrop := dropWhile_isBlank_expand hspells cells
  have hend : ∀ {c : Char}, (c = ';' ∨ c = '\x7b' ∨ c = separator) →
      isBlank c = false ∧ isNameStart c = false := by
    rintro c (rfl | rfl | rfl) <;> decide
  constructor
  · rintro ⟨gap, c, rest, hgap, hc, htext⟩
    rw [htext, dropWhile_blanks_cons hgap (hend hc).1] at hdrop
    cases hcells : cells.dropWhile Cell.isBlank with
    | nil => rw [hcells] at hdrop; cases hdrop
    | cons d cells' =>
      rw [hcells] at hdrop
      rcases d.char_or_opaque with ⟨a, rfl⟩ | ⟨-, -, -, -, hne⟩
      · obtain rfl : c = a := (List.cons.inj hdrop).1
        exact ⟨c, cells', rfl, hc⟩
      · obtain ⟨first, rest', hexpand, hfirst⟩ :=
          exists_expand_eq_cons hspells (by simpa using hne) cells'
        rw [hexpand] at hdrop
        obtain rfl := (List.cons.inj hdrop).1
        rw [(hend hc).2] at hfirst
        cases hfirst
  · rintro ⟨c, rest, hcells, hc⟩
    obtain ⟨gap, text, hgap, htext, hsplit⟩ := exists_blanks_append (expand target cells)
    rw [hsplit, dropWhile_blanks_append hgap htext, hcells, expand_cons] at hdrop
    exact ⟨gap, c, expand target rest, hgap, hc, by rw [hsplit, hdrop]; rfl⟩

/-- Where the rule for declarations applies is not changed by what marks are written as. -/
theorem declarationSite_expand_iff (before : List Char) (cells : List Cell) :
    DeclarationSite before (expand target cells) ↔
      DeclarationSite before (expand placeholder cells) := by
  rw [DeclarationSite, DeclarationSite, declarationEnd_expand_iff hspells,
    declarationEnd_expand_iff fun _ => spells_placeholder]

end Spelling

/-! ### Behind the keyword -/

theorem DeclarationLead.exists_body {lead : List Char} (h : DeclarationLead lead) :
    ∃ body c, isBlank c = true ∧ LineLed ["namespace"] (body ++ [c]) ∧
      (lead = body ++ [c] ∨ lead = body ++ [c] ++ [separator]) := by
  obtain ⟨indent, gap, sep, hindent, hgap, hne, hsep, rfl⟩ := h
  obtain ⟨gap, c, rfl⟩ := (List.eq_nil_or_concat gap).resolve_left hne
  rw [List.concat_eq_append] at hgap hne ⊢
  refine ⟨indent ++ "namespace".toList ++ gap, c, hgap c (by simp), ?_, ?_⟩
  · exact ⟨indent, gap ++ [c], ⟨[], indent, Or.inl rfl, hindent, rfl⟩, hne, hgap,
      List.append_assoc ..⟩
  · rcases hsep with rfl | rfl <;> simp

/-- On one line the keyword and blanks are all that comes before the name. -/
theorem declarationLead_of_lineLed {lead : List Char} (h : LineLed ["namespace"] lead)
    (hline : '\n' ∉ lead) : DeclarationLead lead := by
  obtain ⟨front, gap, ⟨start, indent, hstart, hindent, rfl⟩, hne, hgap, rfl⟩ := h
  rcases hstart with rfl | ⟨start, rfl⟩
  · exact ⟨indent, gap, [], hindent, hgap, hne, Or.inl rfl, by simp⟩
  · simp at hline

section Lead

variable {lead : List Char} (hlead : DeclarationLead lead)

include hlead

/-- Behind the keyword a place is a reference where the rule for declarations applies, or else where
a further segment follows. -/
theorem plainSite_lead_iff {after : List Char} :
    PlainSite lead after ↔ DeclarationSite lead after ∨ Continues after := by
  obtain ⟨body, c, hc, hled, hbody⟩ := hlead.exists_body
  constructor
  · rintro (h | ⟨hwords, rest, rfl⟩ | ⟨front, a, rest, -, -, rfl, ha⟩ | h)
    · exact Or.inl h
    · -- the word before a blank can be none but the keyword
      have hblank : ∃ a back, lead.reverse = a :: back ∧ isBlank a = true := by
        rcases hwords with h | h | h <;>
          exact (Shape.leads_of_lineLed (s := .importation) (Or.inr rfl) (by decide) h).1
      obtain ⟨a, back, hback, ha⟩ := hblank
      rcases hbody with rfl | rfl
      · exact Or.inl ⟨hled, [], separator, rest, nofun, by simp, rfl⟩
      · rw [List.reverse_append] at hback
        obtain rfl := (List.cons.inj hback).1
        exact absurd ha (by decide)
    · exact Or.inr ⟨a :: rest, rfl, by simpa using ha⟩
    · obtain ⟨⟨front, tag, gap, run, -, -, -, -, htext⟩, -⟩ := h
      have hat : '@' ∉ lead := hlead.not_mem (by decide)
      exact absurd (htext ▸ by simp) hat
  · rintro (h | ⟨rest, rfl, hstart⟩)
    · exact Or.inl h
    · rcases hbody with rfl | rfl
      · exact Or.inl ⟨hled, [], separator, rest, nofun, by simp, rfl⟩
      · obtain ⟨a, rest, rfl⟩ : ∃ a rest', rest = a :: rest' := by
          cases rest with
          | nil => cases hstart
          | cons a rest => exact ⟨a, rest, rfl⟩
        refine Or.inr (Or.inr (Or.inl ⟨body ++ [c], a, rest, rfl, ?_, rfl, hstart⟩))
        refine Or.inr ⟨body, c, rfl, ?_, ?_⟩
        · rw [Bool.eq_false_iff]
          intro hname
          rw [isBlank_eq_false_of_isNameChar hname] at hc
          cases hc
        · rintro rfl
          exact absurd hc (by decide)

/-- What has been claimed behind the keyword was a reference as code has it: no literal begins
there. -/
theorem plainSite_of_made {m : Mark} {more : List Cell}
    (hmade : Made moduleShapes (lead.map .char ++ .mark m :: more)) :
    PlainSite lead (expand placeholder more) := by
  obtain ⟨s, hs, -, before, after, hrec, hbefore, hafter⟩ := hmade _ m more rfl
  rw [expand_map_char] at hbefore
  have hfront : expand placeholder before.reverse = lead := List.reverse_injective hbefore
  cases s with
  | declaration =>
    rw [Shape.declaration_recognises_eq_fits, fits_declaration_iff, hfront, hafter] at hrec
    exact Or.inl hrec
  | importation =>
    rw [Shape.importation_recognises_eq_fits, fits_importation_iff, hfront, hafter] at hrec
    exact Or.inr (Or.inl hrec)
  | documented =>
    rw [Shape.documented_recognises_eq_fits, fits_documented_iff, hfront, hafter] at hrec
    exact Or.inr (Or.inr (Or.inr hrec))
  | qualified =>
    obtain ⟨-, rest, -, rfl, hname, -⟩ := Shape.recognisesQualified_iff.1 hrec
    have hopens : rest.head?.any Cell.opensName = true := by
      match rest with
      | .char a :: _ => exact hname
      | .name :: _ => rfl
    refine (plainSite_lead_iff hlead).2 (Or.inr ?_)
    rw [← hafter]
    exact (continues_expand_iff (fun _ => spells_placeholder) _).2 ⟨rest, rfl, hopens⟩
  | escaped =>
    obtain ⟨back, hback⟩ := Shape.leads_of_recognises hrec
    obtain ⟨body, c, hc, -, rfl | rfl⟩ := hlead.exists_body
    · rw [hbefore, List.reverse_append] at hback
      obtain rfl := (List.cons.inj hback).1
      exact absurd hc (by decide)
    · rw [hbefore, List.reverse_append, List.reverse_append] at hback
      obtain rfl := (List.cons.inj (List.cons.inj hback).2).1
      exact absurd hc (by decide)
  | loaderLiteral => simp [moduleShapes] at hs

variable (b : Brand)

/-- The placeholder behind the keyword is claimed, which it is only where it is a reference, or it
stays. -/
theorem brandModule_lead_append {after : List Char} (hnul : '\x00' ∉ lead ++ placeholder ++ after) :
    (PlainSite lead after ∧
      ∃ m rest, brandModule b (lead ++ placeholder ++ after) = lead ++ (b.inFront m ++ rest)) ∨
      ∃ more, expand placeholder more = after ∧
        brandModule b (lead ++ placeholder ++ after) =
          lead ++ placeholder ++ expand b.target more := by
  have hcells : nameCells (lead ++ placeholder ++ after) =
      lead.map .char ++ .name :: nameCells after := by
    rw [List.append_assoc, nameCells_append_of_not_mem (hlead.not_mem (by decide)),
      nameCells_placeholder_append]
  have hclaimed := claimed_stageAll moduleShapes (nameCells (lead ++ placeholder ++ after))
  have hmade := (made_nameCells (lead ++ placeholder ++ after)).stageAll moduleShapes
  rw [List.nil_append] at hmade
  rw [brandModule, brandShapes, cells_eq_nameCells hnul]
  rw [hcells] at hclaimed hmade ⊢
  obtain ⟨rest, hrest, hclaim⟩ := hclaimed.exists_of_map_char
  rw [hrest] at hmade ⊢
  cases hclaim with
  | @cons _ c _ more hc hmore =>
    have hafter : expand placeholder more = after :=
      (Claimed.expand_eq hmore).trans (expand_nameCells placeholder after)
    cases hc with
    | same =>
      refine Or.inr ⟨more, hafter, ?_⟩
      rw [expand_append, expand_map_char, expand_cons, List.append_assoc]
      rfl
    | mark m =>
      refine Or.inl ⟨hafter ▸ plainSite_of_made hlead hmade, m,
        placeholder ++ expand b.target more, ?_⟩
      rw [expand_append, expand_map_char, expand_cons, b.expand_mark, List.append_assoc]

/-- What is claimed is declared below the brand. -/
theorem firstSegment_declaredOnLine?_inFront {m : Mark} {rest path : List Char}
    (h : declaredOnLine? (lead ++ (b.inFront m ++ rest)) = some path) :
    firstSegment path = b.name.toList := by
  obtain ⟨first, name, hname, hstart⟩ := b.exists_name_eq_cons
  have hend : ∀ c ∈ (List.replicate m.separators separator ++ rest).head?,
      isNameChar c = false := by
    cases m <;> simp [Mark.separators, List.replicate] <;> decide
  rw [b.inFront_eq, List.append_assoc, hname, List.cons_append,
    declaredOnLine?_lead_append hlead hstart, ← List.cons_append, ← hname] at h
  obtain ⟨tail, hpath, htail⟩ := exists_namespacePath?_append b.identifier hend
  rw [hpath, Option.some.injEq] at h
  rw [← h]
  exact firstSegment_append b.identifier (htail.imp And.left And.left)

theorem declaredOnLine?_lead_placeholder_append (rest : List Char) :
    declaredOnLine? (lead ++ placeholder ++ rest) = namespacePath? (placeholder ++ rest) := by
  rw [List.append_assoc]
  exact declaredOnLine?_lead_append hlead (show isNameStart 'W' = true by decide) _

end Lead

/-! ### One line -/

/-- A line that declares the placeholder, and to which the rule for declarations does not apply. -/
def SparedLine (line : List Char) : Prop :=
  declaredOnLine? line = some placeholder ∧
    ∀ before after, line = before ++ placeholder ++ after → ¬ DeclarationSite before after

/-- A branded text holds no reference, unless the brand is the placeholder. -/
theorem unreferenced_brandModule {b : Brand} (hb : b.name ≠ "WPLite") {text : List Char}
    (hnul : '\x00' ∉ text) : Unreferenced (brandModule b text) := by
  have hnul' : '\x00' ∉ brandModule b text := by
    rw [brandModule, brandShapes, cells_eq_nameCells hnul]
    exact b.nul_not_mem_expand (claimed_stageAll moduleShapes (nameCells text)) hnul
  rw [← brandModule_eq_self_iff b hnul']
  exact ((rebranding_iff b).2 hb text hnul b).1

/-- A branded line declares something where the line did. -/
theorem isSome_declaredOnLine?_brandModule (b : Brand) {line : List Char} (hnul : '\x00' ∉ line) :
    (declaredOnLine? (brandModule b line)).isSome = (declaredOnLine? line).isSome := by
  have hclaimed := claimed_stageAll moduleShapes (nameCells line)
  have htext : expand placeholder (stageAll moduleShapes (nameCells line)) = line := by
    rw [hclaimed.expand_eq, expand_nameCells]
  have hline := isSome_declaredOnLine?_expand (fun _ => spells_placeholder)
    (stageAll moduleShapes (nameCells line))
  rw [htext] at hline
  rw [brandModule, brandShapes, cells_eq_nameCells hnul, Bool.eq_iff_iff, hline,
    isSome_declaredOnLine?_expand fun _ => b.spells_target]

/-- Where a branded line declares the placeholder or something below it, the line had the
placeholder behind the keyword: branding makes none out of what is none. -/
theorem exists_lead_of_brandModule {b : Brand} {line path : List Char} (hnul : '\x00' ∉ line)
    (hpath : declaredOnLine? (brandModule b line) = some path)
    (hsegment : firstSegment path = placeholder) :
    ∃ lead after, DeclarationLead lead ∧ line = lead ++ placeholder ++ after := by
  have hsome : (declaredOnLine? line).isSome = true := by
    rw [← isSome_declaredOnLine?_brandModule b hnul, hpath]
    rfl
  obtain ⟨lead, first, rest, hlead, hfirst, rfl⟩ := isSome_declaredOnLine?_iff_exists_lead.1 hsome
  by_cases hp : placeholder <+: first :: rest
  · obtain ⟨after, hafter⟩ := hp
    exact ⟨lead, after, hlead, by rw [List.append_assoc, hafter]⟩
  -- the first letter of the name is a cell of its own then, also in what is written out
  have hclaimed := claimed_stageAll moduleShapes (nameCells (lead ++ first :: rest))
  have hled := (quiet_stageAll Shape.inOrder_moduleShapes (led_nameCells (lead ++ first :: rest))
    (by simp)).1
  have hread := b.nameCells_expand hclaimed hled.leadsMarks
  have hcells : nameCells (lead ++ first :: rest) =
      lead.map .char ++ .char first :: nameCells rest := by
    rw [nameCells_append_of_not_mem (hlead.not_mem (by decide)), nameCells_cons hp]
  rw [brandModule, brandShapes, cells_eq_nameCells hnul] at hpath
  rw [hcells] at hclaimed hread hpath
  obtain ⟨claimed, hstage, hclaim⟩ := hclaimed.exists_of_map_char
  cases hclaim with
  | @cons _ c _ more hc hmore =>
    cases hc
    rw [hstage, expand_append, expand_map_char, expand_cons, Cell.expand, List.singleton_append]
      at hread hpath
    rw [declaredOnLine?_lead_append hlead hfirst] at hpath
    obtain ⟨after, htext, -⟩ := exists_rest_of_namespacePath? hpath
    have hchars : (lead.map Cell.char).flatMap b.rewritten = lead.map .char := by
      rw [List.flatMap_map]
      exact List.map_eq_flatMap.symm
    rw [htext, hsegment, nameCells_append_of_not_mem (hlead.not_mem (by decide)),
      nameCells_placeholder_append, List.flatMap_append, hchars,
      List.append_cancel_left_eq] at hread
    cases (List.cons.inj hread).1

section Line

variable {b : Brand} (hb : b.name ≠ "WPLite")

include hb

/-- What is declared behind the keyword once the line is branded, where the placeholder stood there:
nothing below it, and the placeholder itself if it was and if the rule does not apply. -/
theorem declaredOnLine?_brandModule_lead {lead after : List Char} (hlead : DeclarationLead lead)
    (hnul : '\x00' ∉ lead ++ placeholder ++ after) :
    (∀ path, declaredOnLine? (brandModule b (lead ++ placeholder ++ after)) = some path →
        firstSegment path = placeholder → path = placeholder) ∧
      (declaredOnLine? (brandModule b (lead ++ placeholder ++ after)) = some placeholder ↔
        declaredOnLine? (lead ++ placeholder ++ after) = some placeholder ∧
          ¬ DeclarationSite lead after) := by
  rw [declaredOnLine?_lead_placeholder_append hlead after, namespacePath?_placeholder_append_iff]
  rcases brandModule_lead_append hlead b hnul with
    ⟨hsite, m, rest, hbranded⟩ | ⟨more, rfl, hbranded⟩
  · have hsegment : ∀ path,
        declaredOnLine? (brandModule b (lead ++ placeholder ++ after)) = some path →
          firstSegment path ≠ placeholder := by
      intro path hpath
      rw [hbranded] at hpath
      rw [firstSegment_declaredOnLine?_inFront hlead b hpath]
      exact fun hname => hb (String.toList_inj.1 hname)
    refine ⟨fun path hpath hfirst => absurd hfirst (hsegment path hpath), iff_of_false ?_ ?_⟩
    · exact fun hpath => hsegment placeholder hpath firstSegment_placeholder
    · rintro ⟨⟨-, hend⟩, hnot⟩
      exact ((plainSite_lead_iff hlead).1 hsite).elim hnot hend
  · have hfree : ¬ PlainSite lead (expand b.target more) :=
      (unreferenced_brandModule hb hnul _ _ hbranded).1
    rw [plainSite_lead_iff hlead, not_or] at hfree
    have hspells := fun (c : Cell) => b.spells_target (c := c)
    have hcontinues : Continues (expand b.target more) ↔ Continues (expand placeholder more) := by
      rw [continues_expand_iff hspells, continues_expand_iff fun _ => spells_placeholder]
    rw [hbranded, declaredOnLine?_lead_placeholder_append hlead,
      namespacePath?_placeholder_append_iff, head?_expand_iff hspells, hcontinues,
      ← declarationSite_expand_iff hspells]
    refine ⟨fun path hpath hfirst => ?_, fun h => ⟨h, hfree.1⟩, And.left⟩
    obtain ⟨rest, htext, -, ⟨hpath', -⟩ | hrest⟩ := exists_rest_of_namespacePath? hpath
    · exact hpath'.trans hfirst
    · rw [hfirst, List.append_cancel_left_eq] at htext
      exact absurd (htext ▸ hrest) hfree.2

/-- A branded line declares nothing below the placeholder, and the placeholder itself exactly where
the line is spared. -/
theorem declaredOnLine?_brandModule {line : List Char} (hnul : '\x00' ∉ line)
    (hline : '\n' ∉ line) :
    (∀ path, declaredOnLine? (brandModule b line) = some path →
        ¬ placeholder ++ [separator] <+: path) ∧
      (declaredOnLine? (brandModule b line) = some placeholder ↔ SparedLine line) := by
  refine ⟨?_, ?_, ?_⟩
  · rintro path hpath ⟨tail, rfl⟩
    have hsegment : firstSegment (placeholder ++ [separator] ++ tail) = placeholder := by
      rw [List.append_assoc]
      exact firstSegment_append (by decide) (Or.inr ⟨tail, rfl⟩)
    obtain ⟨lead, after, hlead, rfl⟩ := exists_lead_of_brandModule hnul hpath hsegment
    have hsame := (declaredOnLine?_brandModule_lead hb hlead hnul).1 _ hpath hsegment
    rw [List.append_assoc, List.append_right_eq_self] at hsame
    cases hsame
  · intro hpath
    refine ⟨?_, ?_⟩
    · obtain ⟨lead, after, hlead, rfl⟩ :=
        exists_lead_of_brandModule hnul hpath firstSegment_placeholder
      exact ((declaredOnLine?_brandModule_lead hb hlead hnul).2.1 hpath).1
    · rintro before after rfl hsite
      have hbefore : '\n' ∉ before := by
        simp only [List.mem_append, not_or] at hline
        exact hline.1.1
      have hlead := declarationLead_of_lineLed hsite.1 hbefore
      exact ((declaredOnLine?_brandModule_lead hb hlead hnul).2.1 hpath).2 hsite
  · rintro ⟨hpath, hspared⟩
    have hsome : (declaredOnLine? line).isSome = true := by rw [hpath]; rfl
    obtain ⟨lead, first, rest, hlead, hfirst, rfl⟩ := isSome_declaredOnLine?_iff_exists_lead.1 hsome
    have hread := hpath
    rw [declaredOnLine?_lead_append hlead hfirst] at hread
    obtain ⟨after, htext, -⟩ := exists_rest_of_namespacePath? hread
    rw [firstSegment_placeholder] at htext
    rw [htext, ← List.append_assoc] at hpath hspared hnul ⊢
    exact (declaredOnLine?_brandModule_lead hb hlead hnul).2.2 ⟨hpath, hspared lead after rfl⟩

end Line

/-! ### Line by line -/

theorem newline_not_mem_brandModule (b : Brand) {line : List Char} (h : '\n' ∉ line) :
    '\n' ∉ brandModule b line := by
  refine newline_not_mem_expand (fun _ => b.spells_target) fun hmem => ?_
  have hfree : '\n' ∉ expand placeholder (cells line) :=
    newline_not_mem_expand (fun _ => spells_placeholder) fun hchar =>
      h (mem_of_char_mem_cells hchar)
  rw [← (claimed_stageAll moduleShapes (cells line)).expand_eq] at hfree
  exact hfree (List.mem_flatMap.2 ⟨_, hmem, List.mem_singleton_self _⟩)

theorem lines_brandModule (b : Brand) (text : List Char) :
    lines (brandModule b text) = (lines text).map (brandModule b) := by
  induction hlength : text.length using Nat.strong_induction_on generalizing text with
  | _ n ih =>
    subst hlength
    obtain ⟨line, rest, hline, rfl, rfl | ⟨more, rfl⟩⟩ := exists_line_append text
    · rw [List.append_nil, lines_of_not_mem hline,
        lines_of_not_mem (newline_not_mem_brandModule b hline)]
      rfl
    · rw [brandModule, brandShapes_append_newline, lines_append_newline, lines_append_newline,
        lines_of_not_mem hline, List.map_append, ← ih _ (by simp; omega) more rfl]
      exact congrArg (· ++ _) (lines_of_not_mem (newline_not_mem_brandModule b hline))

theorem not_mem_of_mem_lines {text line : List Char} (h : line ∈ lines text) :
    '\n' ∉ line ∧ ∀ c ∈ line, c ∈ text := by
  induction hlength : text.length using Nat.strong_induction_on generalizing text with
  | _ n ih =>
    subst hlength
    obtain ⟨front, rest, hfront, rfl, rfl | ⟨more, rfl⟩⟩ := exists_line_append text
    · rw [List.append_nil, lines_of_not_mem hfront, List.mem_singleton] at h
      subst h
      exact ⟨hfront, by simp⟩
    · rw [lines_append_newline, lines_of_not_mem hfront, List.mem_append, List.mem_singleton] at h
      rcases h with rfl | h
      · exact ⟨hfront, fun c hc => List.mem_append_left _ hc⟩
      · obtain ⟨hfree, hmem⟩ := ih more.length (by simp; omega) h rfl
        exact ⟨hfree, fun c hc => List.mem_append_right _ (List.mem_cons_of_mem _ (hmem c hc))⟩

/-- The line that holds the first declaration of a text. -/
def declaringLine? (text : List Char) : Option (List Char) :=
  (lines text).find? fun line => (declaredOnLine? line).isSome

theorem declaredNamespace?_eq_bind (text : List Char) :
    declaredNamespace? text = (declaringLine? text).bind declaredOnLine? := by
  rw [declaredNamespace?, declaringLine?]
  induction lines text with
  | nil => rfl
  | cons line rest ih =>
    rw [List.findSome?_cons, List.find?_cons]
    cases hline : declaredOnLine? line with
    | none => exact ih
    | some path => exact hline.symm

/-- Branding does not move the first declaration. -/
theorem declaringLine?_brandModule (b : Brand) {text : List Char} (hnul : '\x00' ∉ text) :
    declaringLine? (brandModule b text) = (declaringLine? text).map (brandModule b) := by
  rw [declaringLine?, declaringLine?, lines_brandModule, List.find?_map]
  refine congrArg (Option.map (brandModule b)) (List.find?_congr fun line hline => ?_)
  rw [Function.comp_apply, isSome_declaredOnLine?_brandModule b]
  exact fun hmem => hnul ((not_mem_of_mem_lines hline).2 _ hmem)

/-- A branded file declares nothing below the placeholder. It declares the placeholder itself
exactly where the line that holds its first declaration did so before, and the rule for declarations
does not apply to that line. -/
theorem declaredNamespace?_brandModule_eq_placeholder_iff {b : Brand} (hb : b.name ≠ "WPLite")
    {text : List Char} (hnul : '\x00' ∉ text) :
    (∀ path, declaredNamespace? (brandModule b text) = some path →
        ¬ placeholder ++ [separator] <+: path) ∧
      (declaredNamespace? (brandModule b text) = some placeholder ↔
        ∃ line, declaringLine? text = some line ∧ SparedLine line) := by
  rw [declaredNamespace?_eq_bind, declaringLine?_brandModule b hnul]
  cases hdeclaring : declaringLine? text with
  | none => simp
  | some line =>
    have hmem : line ∈ lines text := List.mem_of_find?_eq_some hdeclaring
    obtain ⟨hline, hchar⟩ := not_mem_of_mem_lines hmem
    have hfree : '\x00' ∉ line := fun h => hnul (hchar _ h)
    obtain ⟨hbelow, hspared⟩ := declaredOnLine?_brandModule hb hfree hline
    rw [Option.map_some, Option.bind_some]
    refine ⟨hbelow, hspared.trans ⟨fun h => ⟨line, rfl, h⟩, ?_⟩⟩
    rintro ⟨line', hline', h⟩
    rwa [Option.some.inj hline']

/-- A file whose first declaration is spared, and its second one not. -/
theorem exists_sparedLine_rooted :
    (⟨"Acme", by decide⟩ : Brand).name ≠ "WPLite" ∧
      '\x00' ∉ "<?php\nnamespace \\WPLite;\nnamespace WPLite\\A;".toList ∧
      brandModule ⟨"Acme", by decide⟩ "<?php\nnamespace \\WPLite;\nnamespace WPLite\\A;".toList =
        "<?php\nnamespace \\WPLite;\nnamespace Acme\\WPLite\\A;".toList ∧
      ∃ line, declaringLine? "<?php\nnamespace \\WPLite;\nnamespace WPLite\\A;".toList = some line ∧
        SparedLine line := by
  have hb : (⟨"Acme", by decide⟩ : Brand).name ≠ "WPLite" := by decide
  have hnul : '\x00' ∉ "<?php\nnamespace \\WPLite;\nnamespace WPLite\\A;".toList := by decide
  have hbranded : brandModule ⟨"Acme", by decide⟩
      "<?php\nnamespace \\WPLite;\nnamespace WPLite\\A;".toList =
        "<?php\nnamespace \\WPLite;\nnamespace Acme\\WPLite\\A;".toList := by decide
  refine ⟨hb, hnul, hbranded, ?_⟩
  refine (declaredNamespace?_brandModule_eq_placeholder_iff hb hnul).2.1 ?_
  rw [hbranded]
  decide +kernel

/-- It is not so that no branded file declares the placeholder: the brace that opens the namespace
may stand on the next line. -/
theorem not_forall_declaredNamespace?_brandModule_ne_placeholder :
    ¬ ∀ (b : Brand) (text : List Char), b.name ≠ "WPLite" → '\x00' ∉ text →
      ∀ path, declaredNamespace? (brandModule b text) = some path →
        path ≠ placeholder ∧ ¬ placeholder ++ [separator] <+: path := by
  intro h
  have hbranded : brandModule ⟨"Acme", by decide⟩ "namespace WPLite\n\x7b\n\x7d".toList =
      "namespace WPLite\n\x7b\n\x7d".toList := by decide
  refine (h ⟨"Acme", by decide⟩ "namespace WPLite\n\x7b\n\x7d".toList (by decide) (by decide)
    placeholder ?_).1 rfl
  rw [hbranded]
  decide +kernel

end Branding
