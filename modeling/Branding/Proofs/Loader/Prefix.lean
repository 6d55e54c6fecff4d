import Branding.Loader.Text
import Branding.Proofs.Loader.Candidate
import Branding.Proofs.Loader.Literal
import Branding.Proofs.Source.Assigned
import Branding.Proofs.Source.Rebranding
import Branding.Proofs.Tree.Spelling

/-!
# What a loader compares class names with

Three rules write the target namespace between quotes: the text of a generated loader, the shape of
an assignment in a loader that is branded in place, and the mark of a reference in a literal. All
three double its separators. So the literal that a loader assigns is the same, whichever way the
loader came about, and it denotes the target and a separator, which is what the check of a build
strips from a name.

Branding in place may meet a loader that has been generated. It leaves it as it is. On three of its
lines the target is written, with a blank or a quote before it, and there the placeholder is the
tail of a longer name. The line that includes the helpers may hold the placeholder as well, if their
directory has it in its name, but no separator follows it there.

## Main definitions

* `Brand.prefixLiteral` — the literal that a loader assigns
* `LoaderLine.fixed` — what a line holds, whatever is filled in
* `LoaderLine.IsQuiet` — nothing is recognised on a line, whatever is filled in

## Main results

* `exists_selfContained_eq` — a generated loader assigns it, and nothing before
* `brandLoader_fill` — branding in place leaves a quiet line as it is
* `brandLoader_selfContained` — and so a generated loader, all of whose lines are quiet
* `prefixLiteral_agrees` — the literals agree with each other and with the check of a build
-/

namespace Branding

/-- The literal that a loader compares class names with, as it stands between the quotes. -/
def Brand.prefixLiteral (b : Brand) : List Char := b.doubledTarget ++ [separator, separator]

namespace Brand

variable (b : Brand)

theorem prefixLiteral_eq : b.prefixLiteral = doubleSeparators (b.target ++ [separator]) := by
  rw [doubleSeparators_append]
  rfl

theorem not_mem_target {c : Char} (hname : isNameChar c = false) (hc : c ≠ separator) :
    c ∉ b.target := by
  have hbrand : c ∉ b.name.toList := fun h =>
    absurd (b.isNameChar_of_mem h) (by simp [hname])
  have hplaceholder : c ∉ placeholder := fun h =>
    absurd (isNameChar_of_mem_placeholder h) (by simp [hname])
  simp [target, hbrand, hc, hplaceholder]

/-- It denotes the target and a separator. -/
theorem readLiteral?_prefixLiteral (rest : List Char) :
    readLiteral? (b.prefixLiteral ++ '\'' :: rest) = some (b.target ++ [separator], rest) := by
  have hquote : '\'' ∉ b.target := b.not_mem_target (by decide) (by decide)
  rw [prefixLiteral_eq, readLiteral?_doubleSeparators (by simp [hquote, separator])]

end Brand

/-! ### The assignment in a generated loader -/

theorem unlines_cons (line : List Char) (lines : List (List Char)) :
    unlines (line :: lines) = line ++ '\n' :: unlines lines := by
  simp [unlines]

theorem unlines_append (a b : List (List Char)) : unlines (a ++ b) = unlines a ++ unlines b := by
  simp [unlines]

theorem not_mem_unlines {c : Char} (hc : c ≠ '\n') {lines : List (List Char)}
    (h : ∀ line ∈ lines, c ∉ line) : c ∉ unlines lines := by
  rw [unlines, List.mem_flatMap]
  rintro ⟨line, hline, hmem⟩
  rw [List.mem_append, List.mem_singleton] at hmem
  exact hmem.elim (h line hline) hc

/-- The line that assigns a literal. -/
theorem prefixLine_eq (literal : List Char) :
    "    $prefix = '".toList ++ literal ++ "\\\\';".toList =
    "    ".toList ++ prefixAssignment [' '] [' '] (literal ++ [separator, separator]) [] ++
      [';'] := by
  have hlead : "    $prefix = '".toList =
      "    ".toList ++ '$' :: (prefixVariable ++ [' ', '=', ' ', '\'']) := by decide +kernel
  have htail : "\\\\';".toList = [separator, separator, '\'', ';'] := by decide +kernel
  rw [hlead, htail]
  simp [prefixAssignment]

/-- What a line holds, whatever is filled in. -/
def LoaderLine.fixed : LoaderLine → List Char
  | .text line => line.toList
  | .named before after | .quoted before after | .extended before after =>
    before.toList ++ after.toList
  | .helpers before after => before.toList ++ '/' :: "/*.".toList ++ after.toList

theorem mem_of_mem_doubleSeparators {c : Char} {text : List Char}
    (h : c ∈ doubleSeparators text) : c ∈ text := by
  obtain ⟨a, ha, hc⟩ := List.mem_flatMap.1 h
  split at hc
  next heq =>
    obtain rfl : a = separator := by simpa using heq
    simp only [List.mem_cons, List.not_mem_nil, or_false, or_self] at hc
    exact hc ▸ ha
  next => exact List.mem_singleton.1 hc ▸ ha

theorem mem_of_mem_trimSlashes {c : Char} {text : List Char}
    (h : c ∈ LoaderFields.trimSlashes text) : c ∈ text := by
  have hback := (List.dropWhile_suffix _).mem (List.mem_reverse.1 h)
  exact (List.dropWhile_suffix _).mem (List.mem_reverse.1 hback)

theorem helpersPattern_eq (f : LoaderFields) : f.helpersPattern =
    '/' :: LoaderFields.trimSlashes f.helpersDir ++ "/*.".toList ++ f.extension := rfl

/-- A line filled in holds what it held before and what is filled in, and nothing else. -/
theorem LoaderLine.not_mem_fill {line : LoaderLine} {f : LoaderFields} {c : Char}
    (h : c ∉ line.fixed) (hnamespace : c ∉ f.namespaceName) (hdir : c ∉ f.helpersDir)
    (hextension : c ∉ f.extension) : c ∉ line.fill f := by
  cases line with
  | text line =>
    rw [fixed] at h
    exact h
  | named before after =>
    simp only [fixed, fill, List.mem_append, not_or] at h ⊢
    exact ⟨⟨h.1, hnamespace⟩, h.2⟩
  | quoted before after =>
    simp only [fixed, fill, List.mem_append, not_or] at h ⊢
    exact ⟨⟨h.1, fun hmem => hnamespace (mem_of_mem_doubleSeparators hmem)⟩, h.2⟩
  | extended before after =>
    simp only [fixed, fill, List.mem_append, not_or] at h ⊢
    exact ⟨⟨h.1, hextension⟩, h.2⟩
  | helpers before after =>
    have htrim : c ∉ LoaderFields.trimSlashes f.helpersDir :=
      fun hmem => hdir (mem_of_mem_trimSlashes hmem)
    rw [fill, helpersPattern_eq]
    simp only [fixed, List.mem_append, List.mem_cons, not_or] at h ⊢
    exact ⟨⟨h.1.1, ⟨⟨h.1.2.1, htrim⟩, h.1.2.2⟩, hextension⟩, h.2⟩

/-- A generated loader assigns the literal, and assigns nothing to the variable before. -/
theorem exists_selfContained_eq (b : Brand) :
    ∃ front, ¬ '$' :: prefixVariable <:+: front ∧ ∀ helpersDir extension, ∃ rest,
      (LoaderFields.mk b.target helpersDir extension).render .selfContained =
        front ++ prefixAssignment [' '] [' '] b.prefixLiteral [] ++ ';' :: rest := by
  -- there is one dollar sign before, in front of the variable of the function that is registered
  let opening := unlines ((LoaderStrategy.selfContained.opening.take 11).map
    (·.fill ⟨b.target, [], []⟩))
  have hdollar : '$' ∉ opening := by
    refine not_mem_unlines (by decide) fun line hline => ?_
    obtain ⟨before, hmem, rfl⟩ := List.mem_map.1 hline
    have hfixed : ∀ line ∈ LoaderStrategy.selfContained.opening.take 11, '$' ∉ line.fixed := by
      decide +kernel
    exact LoaderLine.not_mem_fill (hfixed before hmem) (b.not_mem_target (by decide) (by decide))
      (by simp) (by simp)
  have hregister : "spl_autoload_register(function ($class) \x7b".toList =
      "spl_autoload_register(function (".toList ++ '$' :: "class) \x7b".toList := by decide +kernel
  have hclass : '$' ∉ "class) \x7b".toList ++ '\n' :: "    ".toList ∧
      ("class) \x7b".toList ++ '\n' :: "    ".toList).head? ≠ some 'p' := by decide +kernel
  refine ⟨opening ++ "spl_autoload_register(function (".toList ++
    '$' :: ("class) \x7b".toList ++ '\n' :: "    ".toList), ?_, fun helpersDir extension => ?_⟩
  · rintro ⟨before, after, htext⟩
    have hfree : '$' ∉ opening ++ "spl_autoload_register(function (".toList :=
      fun h => (List.mem_append.1 h).elim hdollar (by decide +kernel)
    rw [List.append_assoc, List.cons_append, eq_comm,
      List.append_cons_inj_of_notMem hfree hclass.1] at htext
    exact hclass.2 (htext.2.2 ▸ rfl)
  · obtain ⟨closing, hrender⟩ : ∃ closing,
        (LoaderFields.mk b.target helpersDir extension).render .selfContained =
          opening ++ unlines ("spl_autoload_register(function ($class) \x7b".toList ::
            ("    $prefix = '".toList ++ b.doubledTarget ++ "\\\\';".toList) :: closing) := by
      refine ⟨((LoaderStrategy.selfContained.opening.drop 13 ++ helpersTemplate).map
        (·.fill ⟨b.target, helpersDir, extension⟩)), ?_⟩
      rw [← unlines_append]
      rfl
    refine ⟨'\n' :: unlines closing, ?_⟩
    rw [hrender, unlines_cons, unlines_cons, prefixLine_eq, hregister, Brand.prefixLiteral]
    -- the texts are only moved about
    generalize "spl_autoload_register(function (".toList = register
    generalize "class) \x7b".toList = argument
    generalize "    ".toList = indent
    simp

/-! ### Branding a generated loader -/

theorem brandShapes_unlines (shapes : List Shape) (target : List Char)
    (lines : List (List Char)) :
    brandShapes shapes target (unlines lines) =
      unlines (lines.map (brandShapes shapes target)) := by
  induction lines with
  | nil =>
    rw [unlines, List.flatMap_nil, brandShapes, cells_eq_nameCells (by simp),
      stageAll_eq_self fun s _ => rfl]
    rfl
  | cons line lines ih =>
    rw [unlines_cons, brandShapes_append_newline, ih, List.map_cons, unlines_cons]

/-- A text is branded as it is where no shape recognises anything in it. -/
theorem brandShapes_eq_self {shapes : List Shape} (target : List Char) {text : List Char}
    (hnul : '\x00' ∉ text)
    (h : ∀ s ∈ shapes, ∀ front rest, nameCells text = front ++ .name :: rest →
      s.recognises front.reverse rest = false) : brandShapes shapes target text = text := by
  rw [brandShapes, cells_eq_nameCells hnul,
    stageAll_eq_self fun s hs => Shape.stage_eq_self (h s hs), expand_nameCells]

/-- A loader holds no reference where no separator is. -/
theorem brandLoader_of_separator_not_mem (q : Brand) {text : List Char} (hnul : '\x00' ∉ text)
    (hsep : separator ∉ text) : brandLoader q text = text := by
  refine brandShapes_eq_self q.target hnul fun s hs front rest hsplit => ?_
  rw [Bool.eq_false_iff]
  intro h
  obtain ⟨rest, rfl⟩ := Shape.exists_separator_of_recognises (by rintro rfl; revert hs; decide) h
  have hmem : Cell.char separator ∈ nameCells text := hsplit ▸ by simp
  rcases mem_nameCells hmem with heq | ⟨a, ha, heq⟩
  · cases heq
  · exact hsep (Cell.char.inj heq ▸ ha)

/-- Nor where the placeholder does not begin. -/
theorem brandLoader_of_capital_not_mem (q : Brand) {text : List Char} (hnul : '\x00' ∉ text)
    (hcapital : 'W' ∉ text) : brandLoader q text = text := by
  refine brandShapes_eq_self q.target hnul fun s hs front rest hsplit => ?_
  have hchars : nameCells text = text.map .char := by
    simpa using nameCells_append_of_not_mem hcapital []
  rw [hchars] at hsplit
  have hmem : Cell.name ∈ text.map Cell.char := hsplit ▸ by simp
  simp at hmem

/-! ### The lines with the target -/

theorem flatMap_rewritten_map_char (b : Brand) (text : List Char) :
    (text.map Cell.char).flatMap b.rewritten = text.map .char := by
  induction text with
  | nil => rfl
  | cons c text ih =>
    rw [List.map_cons, List.flatMap_cons, ih]
    rfl

section TargetLine

variable (b : Brand) (m : Mark) {lead tail : List Char} (hlead : 'W' ∉ lead) (htail : 'W' ∉ tail)

include hlead htail

theorem nameCells_target_line :
    nameCells (lead ++ (Cell.mark m).expand b.target ++ tail) =
      (lead.map Cell.char ++ Cell.mark m :: tail.map Cell.char).flatMap b.rewritten := by
  have hend : nameCells tail = tail.map .char := by
    simpa using nameCells_append_of_not_mem htail []
  rw [b.expand_mark, List.append_assoc, List.append_assoc, nameCells_append_of_not_mem hlead,
    b.nameCells_inFront_append, nameCells_placeholder_append, hend, List.flatMap_append,
    List.flatMap_cons, flatMap_rewritten_map_char, flatMap_rewritten_map_char]
  simp [Brand.rewritten]

/-- An occurrence on the line lies in the brand or right behind it. -/
theorem exists_rewritten_of_target_line {front rest : List Cell}
    (h : nameCells (lead ++ (Cell.mark m).expand b.target ++ tail) = front ++ .name :: rest) :
    ∃ u v, b.rewritten (.mark m) = u ++ .name :: v ∧ front = lead.map .char ++ u ∧
      rest = v ++ tail.map .char := by
  rw [nameCells_target_line b m hlead htail] at h
  obtain ⟨pre, c, post, u, v, hsplit, hc, rfl, rfl⟩ := exists_split_of_flatMap_eq h
  cases c with
  | char a =>
    have hmem : Cell.name ∈ b.rewritten (.char a) := hc ▸ by simp
    simp [Brand.rewritten] at hmem
  | name =>
    have hmem : Cell.name ∈ lead.map Cell.char ++ Cell.mark m :: tail.map Cell.char :=
      hsplit ▸ by simp
    simp at hmem
  | mark n =>
    obtain ⟨rfl, hmark, rfl⟩ := (List.append_cons_inj_of_notMem (by simp) (by simp)).1 hsplit
    obtain rfl := Cell.mark.inj hmark
    exact ⟨u, v, hc, by rw [flatMap_rewritten_map_char], by rw [flatMap_rewritten_map_char]⟩

/-- A line on which a target is written is branded as it is, where no documentation tag is in reach
of a plain one, and where it is no reference if the brand is the placeholder itself. -/
theorem brandLoader_target_line (q : Brand) (hnul : '\x00' ∉ lead ++ tail)
    (hdoc : m = .plain → afterDocTag (lead.reverse.map .char) = false)
    (hquiet : ∀ s ∈ loaderShapes, s.recognises (lead.reverse.map .char)
      (List.replicate m.separators (.char separator) ++ .name :: tail.map .char) = false) :
    brandLoader q (lead ++ (Cell.mark m).expand b.target ++ tail) =
      lead ++ (Cell.mark m).expand b.target ++ tail := by
  have hnul' : '\x00' ∉ lead ++ (Cell.mark m).expand b.target ++ tail := by
    have hname : '\x00' ∉ b.name.toList := fun h => absurd (b.isNameChar_of_mem h) (by decide)
    simp only [List.mem_append, not_or] at hnul
    simp [b.expand_mark, b.inFront_eq, hnul, hname, placeholder, separator]
  refine brandShapes_eq_self q.target hnul' fun s hs front rest hsplit => ?_
  obtain ⟨u, v, hmark, rfl, rfl⟩ := exists_rewritten_of_target_line b m hlead htail hsplit
  rw [List.reverse_append]
  rcases b.rewritten_mark_eq_append hmark with ⟨rfl, rfl⟩ | ⟨v, hbrand, rfl⟩
  · exact b.recognises_behind s m (by simpa using hdoc) _
  · by_cases hb : b.name.toList = placeholder
    · have hone : nameCells placeholder = [.name] := nameCells_placeholder_append []
      rw [hb, hone] at hbrand
      obtain ⟨rfl, rfl⟩ : u = [] ∧ v = [] := by
        cases u with
        | nil => exact ⟨rfl, (List.cons.inj hbrand).2.symm⟩
        | cons c u => simp at hbrand
      simpa using hquiet s hs
    · rw [List.append_assoc]
      exact b.recognises_inside hb s hbrand _ _

end TargetLine

/-! ### A generated loader, branded -/

/-- Branding in place recognises nothing around a target between two texts. -/
def IsQuietAround (m : Mark) (lead tail : List Char) : Prop :=
  'W' ∉ lead ++ tail ∧ '\x00' ∉ lead ++ tail ∧
    (m = .plain → afterDocTag (lead.reverse.map .char) = false) ∧
    ∀ s ∈ loaderShapes, s.recognises (lead.reverse.map .char)
      (List.replicate m.separators (.char separator) ++ .name :: tail.map .char) = false

instance (m : Mark) (lead tail : List Char) : Decidable (IsQuietAround m lead tail) :=
  inferInstanceAs (Decidable (_ ∧ _))

/-- Branding in place recognises nothing on a line, whatever is filled in. -/
def LoaderLine.IsQuiet : LoaderLine → Prop
  | .named before after => IsQuietAround .plain before.toList after.toList
  | .quoted before after => IsQuietAround .doubled before.toList after.toList
  | .helpers before after =>
    separator ∉ (helpers before after).fixed ∧ '\x00' ∉ (helpers before after).fixed
  | .text line => 'W' ∉ (text line).fixed ∧ '\x00' ∉ (text line).fixed
  | .extended before after =>
    'W' ∉ (extended before after).fixed ∧ '\x00' ∉ (extended before after).fixed

instance : DecidablePred LoaderLine.IsQuiet
  | .named _ _ | .quoted _ _ | .helpers _ _ | .text _ | .extended _ _ =>
    inferInstanceAs (Decidable (_ ∧ _))

/-- A quiet line is left as it is where a target is filled in, and a directory of the helpers in
which no separator is. -/
theorem brandLoader_fill (b q : Brand) {helpersDir : List Char} (hnul : '\x00' ∉ helpersDir)
    (hsep : separator ∉ helpersDir) {line : LoaderLine} (h : line.IsQuiet) :
    brandLoader q (line.fill ⟨b.target, helpersDir, sourceExtension.toList⟩) =
      line.fill ⟨b.target, helpersDir, sourceExtension.toList⟩ := by
  have hextension : 'W' ∉ sourceExtension.toList ∧ '\x00' ∉ sourceExtension.toList ∧
      separator ∉ sourceExtension.toList := by decide +kernel
  have around : ∀ {m : Mark} {lead tail : List Char}, IsQuietAround m lead tail →
      brandLoader q (lead ++ (Cell.mark m).expand b.target ++ tail) =
        lead ++ (Cell.mark m).expand b.target ++ tail := by
    rintro m lead tail ⟨hcapital, hnul, hdoc, hquiet⟩
    rw [List.mem_append, not_or] at hcapital
    exact brandLoader_target_line b m hcapital.1 hcapital.2 q hnul hdoc hquiet
  cases line with
  | text line =>
    rw [LoaderLine.IsQuiet, LoaderLine.fixed] at h
    exact brandLoader_of_capital_not_mem q h.2 h.1
  | named before after =>
    rw [LoaderLine.IsQuiet] at h
    have hline := around h
    exact hline
  | quoted before after =>
    rw [LoaderLine.IsQuiet] at h
    have hline := around h
    exact hline
  | extended before after =>
    rw [LoaderLine.IsQuiet] at h
    have hfill : ∀ c ∉ (LoaderLine.extended before after).fixed, c ∉ sourceExtension.toList →
        c ∉ (LoaderLine.extended before after).fill ⟨[], [], sourceExtension.toList⟩ :=
      fun c hfixed hmem => LoaderLine.not_mem_fill hfixed (by simp) (by simp) hmem
    exact brandLoader_of_capital_not_mem q (hfill _ h.2 hextension.2.1) (hfill _ h.1 hextension.1)
  | helpers before after =>
    rw [LoaderLine.IsQuiet] at h
    have hfill : ∀ c ∉ (LoaderLine.helpers before after).fixed, c ∉ helpersDir →
        c ∉ sourceExtension.toList →
          c ∉ (LoaderLine.helpers before after).fill ⟨[], helpersDir, sourceExtension.toList⟩ :=
      fun c hfixed hdir hmem => LoaderLine.not_mem_fill hfixed (by simp) hdir hmem
    exact brandLoader_of_separator_not_mem q (hfill _ h.2 hnul hextension.2.1)
      (hfill _ h.1 hsep hextension.2.2)

/-- Branding in place leaves a generated loader as it is, where no separator is in the directory of
the helpers. -/
theorem brandLoader_selfContained (b q : Brand) {helpersDir : List Char}
    (hnul : '\x00' ∉ helpersDir) (hsep : separator ∉ helpersDir) :
    brandLoader q ((LoaderFields.mk b.target helpersDir sourceExtension.toList).render
        .selfContained) =
      (LoaderFields.mk b.target helpersDir sourceExtension.toList).render .selfContained := by
  have hquiet : ∀ line ∈ LoaderStrategy.selfContained.opening ++ helpersTemplate,
      line.IsQuiet := by decide +kernel
  rw [LoaderFields.render, brandLoader, brandShapes_unlines, List.map_map]
  exact congrArg unlines (List.map_congr_left fun line hline =>
    brandLoader_fill b q hnul hsep (hquiet line hline))

/-! ### The literals agree -/

/-- The literal that a loader assigns is the same where the loader is generated, whatever directory
and extension are put into it, and where one that is there is branded in place, whatever stands
around the assignment. It denotes the target and a separator, and that is what a resolver strips
from a name. And a generated loader stays as it is under every brand, where the directory of the
helpers is made of identifiers and slashes. -/
theorem prefixLiteral_agrees (b : Brand) :
    (∃ front, ¬ '$' :: prefixVariable <:+: front ∧ ∀ helpersDir extension, ∃ rest,
      (LoaderFields.mk b.target helpersDir extension).render .selfContained =
        front ++ prefixAssignment [' '] [' '] b.prefixLiteral [] ++ ';' :: rest) ∧
    (∀ gap gap' gap'', Blanks gap → Blanks gap' → Blanks gap'' → ∀ before after,
      brandLoader b (before ++
          prefixAssignment gap gap' (placeholder ++ [separator, separator]) gap'' ++ ';' :: after) =
        brandLoader b before ++ prefixAssignment gap gap' b.prefixLiteral gap'' ++
          brandLoader b (';' :: after)) ∧
    (∀ rest, readLiteral? (b.prefixLiteral ++ '\'' :: rest) =
      some (b.target ++ [separator], rest)) ∧
    (∀ root qualified rest, Resolver.rest? ⟨b.targetText, root⟩ qualified = some rest ↔
      rest ≠ [] ∧ qualified.toList = b.target ++ [separator] ++ rest) ∧
    ∀ segments : List (List Char), (∀ s ∈ segments, isIdentifier s = true) → ∀ q : Brand,
      brandLoader q ((LoaderFields.mk b.target (['/'].intercalate segments)
          sourceExtension.toList).render .selfContained) =
        (LoaderFields.mk b.target (['/'].intercalate segments)
          sourceExtension.toList).render .selfContained := by
  refine ⟨exists_selfContained_eq b, fun gap gap' gap'' hgap hgap' hgap'' before after =>
    brandLoader_prefixAssignment hgap hgap' hgap'' b before after, b.readLiteral?_prefixLiteral,
    fun root qualified rest => ?_, fun segments hsegments q => ?_⟩
  · rw [Resolver.rest?_eq_some_iff, Brand.targetText, String.toList_ofList]
    simp
  · have hchar : ∀ c ∈ ['/'].intercalate segments, c = '/' ∨ isNameChar c = true := fun c hc =>
      (mem_or_exists_of_mem_intercalate hc).imp List.mem_singleton.1
        fun ⟨s, hs, hmem⟩ => isNameChar_of_isIdentifier (hsegments s hs) c hmem
    exact brandLoader_selfContained b q
      (fun h => absurd (hchar _ h) (by decide)) (fun h => absurd (hchar _ h) (by decide))

/-- An assignment between others, and a directory of the helpers with the name of the
placeholder. -/
theorem prefixLiteral_agrees_placeholder_dir :
    (Blanks [] ∧ Blanks [' ', '\t'] ∧ Blanks [' ']) ∧
      brandLoader ⟨"Acme", by decide⟩ ("$a=1;".toList ++
          prefixAssignment [] [' ', '\t'] (placeholder ++ [separator, separator]) [' '] ++
            ";use WPLite\\B;".toList) =
        "$a=1;$prefix= \t'Acme\\\\WPLite\\\\' ;use WPLite\\B;".toList ∧
      (∀ s ∈ ["WPLite".toList, "inc".toList], isIdentifier s = true) ∧
        brandLoader ⟨"WPLite", by decide⟩ ((LoaderFields.mk (Brand.mk "Acme" (by decide)).target
            "WPLite/inc".toList sourceExtension.toList).render .selfContained) =
          (LoaderFields.mk (Brand.mk "Acme" (by decide)).target
            "WPLite/inc".toList sourceExtension.toList).render .selfContained := by
  have hgaps : Blanks [] ∧ Blanks [' ', '\t'] ∧ Blanks [' '] := by simp [Blanks, isBlank]
  have hsegments : ∀ s ∈ ["WPLite".toList, "inc".toList], isIdentifier s = true := by decide
  obtain ⟨-, hassign, -, -, hstill⟩ := prefixLiteral_agrees ⟨"Acme", by decide⟩
  refine ⟨hgaps, ?_, hsegments, hstill _ hsegments ⟨"WPLite", by decide⟩⟩
  exact (hassign [] [' ', '\t'] [' '] hgaps.1 hgaps.2.1 hgaps.2.2 "$a=1;".toList
    "use WPLite\\B;".toList).trans (by decide +kernel)

end Branding
