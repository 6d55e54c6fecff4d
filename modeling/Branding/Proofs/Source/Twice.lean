import Branding.Proofs.Source.Opened
import Branding.Proofs.Source.Tagged

/-!
# Branding the helper twice

A second run finds the declaration that the first one put in, so it puts in none, and no check on a
bare name is left for it. What it may find is references. The shapes run before the header and the
qualified names are there: text moved to the start of a line by the header, and the placeholder
written into a check behind a documentation tag, are seen for the first time by the second run.
Where neither comes up it changes nothing.

## Main results

* `qualifyChecks_qualifyChecks` — qualifying the checks a second time changes nothing
* `brandEntryHelper_brandEntryHelper` — what a second run does
* `brandEntryHelper_brandEntryHelper_eq_iff` — when it changes nothing
-/

namespace Branding

/-! ### No NUL comes into a text -/

theorem Brand.nul_not_mem_target (b : Brand) : '\x00' ∉ b.target := by
  have hname : '\x00' ∉ b.name.toList := fun h => absurd (b.isNameChar_of_mem h) (by decide)
  simp [target, hname, separator, placeholder]

section Nul

variable (b : Brand) {text : List Char} (hnul : '\x00' ∉ text)

include hnul

theorem nul_not_mem_brandModule : '\x00' ∉ brandModule b text := by
  rw [brandModule, brandShapes, cells_eq_nameCells hnul]
  exact b.nul_not_mem_expand (claimed_stageAll moduleShapes (nameCells text)) hnul

theorem nul_not_mem_qualifyChecks : '\x00' ∉ qualifyChecks b.target text := by
  obtain ⟨pieces, hreads, hqualify⟩ := exists_reads text
  rw [hqualify, render, List.mem_flatMap]
  rintro ⟨p, hp, hmem⟩
  cases p with
  | char c =>
    obtain rfl := List.mem_singleton.1 hmem
    refine hnul ?_
    rw [← hreads.spells]
    exact List.mem_flatMap.2 ⟨_, hp, hmem⟩
  | check k =>
    have hlead : '\x00' ∉ k.lead := k.not_mem_lead (by decide) (by decide)
    have hname : '\x00' ∉ k.name := k.not_mem_name (by decide)
    have htail : '\x00' ∉ k.tail := k.not_mem_tail (by decide) (by decide)
    simp [Piece.render, BareCheck.qualified, hlead, hname, htail, b.nul_not_mem_target,
      separator] at hmem

theorem nul_not_mem_brandEntryHelper : '\x00' ∉ brandEntryHelper b text := by
  obtain ⟨headed, hheaded, hhelper⟩ := exists_headed_brandEntryHelper b text
  have hmodule := nul_not_mem_brandModule b hnul
  rw [hhelper]
  refine nul_not_mem_qualifyChecks b ?_
  by_cases hopens : Opens b text
  · obtain ⟨white, rest, hrest, -, -, rfl⟩ := hheaded.1 hopens
    have hheader : '\x00' ∉ openHeader b.target := by
      simp [openHeader, openingTag, b.nul_not_mem_target]
    rw [hrest, List.mem_append, not_or] at hmodule
    rw [List.mem_append, not_or]
    exact ⟨hheader, hmodule.2⟩
  · rwa [hheaded.2 hopens]

end Nul

/-! ### The second run -/

theorem isPrefix_of_isPrefix_qualifyChecks (b : Brand) {word text : List Char} (hword : 'f' ∉ word)
    (h : word <+: qualifyChecks b.target text) : word <+: text := by
  obtain ⟨pieces, hreads, hqualify⟩ := exists_reads text
  obtain ⟨rest, hrest⟩ := h
  rw [hqualify] at hrest
  obtain ⟨more, rfl, -⟩ :=
    (writesCalls_qualified b).exists_of_callFree (.of_not_mem hword) hrest.symm
  rw [← hreads.spells, render_append, render_map_char]
  exact List.prefix_append _ _

/-- A second run puts no declaration in. -/
theorem brandEntryHelper_brandEntryHelper (b : Brand) {text : List Char} (hnul : '\x00' ∉ text) :
    brandEntryHelper b (brandEntryHelper b text) =
      qualifyChecks b.target (brandModule b (brandEntryHelper b text)) := by
  obtain ⟨again, hagain, hhelper⟩ := exists_headed_brandEntryHelper b (brandEntryHelper b text)
  have hnot : ¬ Opens b (brandEntryHelper b text) := by
    rintro ⟨hnone, htag⟩
    obtain ⟨hdeclared, hfirst⟩ := declaredNamespace?_brandEntryHelper_eq_none b hnone
    have hbranded : ¬ openingTag <+: brandModule b text := by
      rwa [openingTag_isPrefix_brandModule_iff b hnul]
    obtain ⟨headed, hheaded, hfound⟩ := exists_headed_brandEntryHelper b text
    rw [openingTag_isPrefix_brandModule_iff b (nul_not_mem_brandEntryHelper b hnul),
      hfound] at htag
    have hkept := isPrefix_of_isPrefix_qualifyChecks b (by decide) htag
    rw [hheaded.2 fun h => hbranded h.2] at hkept
    exact hbranded hkept
  rw [hhelper, hagain.2 hnot]

/-- No check is left to be qualified. -/
theorem qualifyChecks_qualifyChecks (b : Brand) (text : List Char) :
    qualifyChecks b.target (qualifyChecks b.target text) = qualifyChecks b.target text := by
  obtain ⟨pieces, hreads, hqualify⟩ := exists_reads text
  obtain ⟨again, hagain, hrequalify⟩ := exists_reads (qualifyChecks b.target text)
  rcases exists_eq_map_char_append again with ⟨chars, rfl⟩ | ⟨front, k, rest, rfl⟩
  · rw [hrequalify, render_map_char, ← hagain.spells, render_map_char]
  · have hstands := hagain.standsIn_iff.2 ⟨front.map .char, rest, rfl, rfl⟩
    rw [hqualify] at hstands
    exact absurd hstands (hreads.not_standsIn_qualified b k _)

theorem length_le_length_qualifyChecks (b : Brand) (text : List Char) :
    text.length ≤ (qualifyChecks b.target text).length := by
  obtain ⟨pieces, hreads, hqualify⟩ := exists_reads text
  rw [hqualify, ← hreads.spells]
  clear hreads hqualify
  induction pieces with
  | nil => exact Nat.le_refl _
  | cons p pieces ih =>
    rw [render_cons, render_cons, List.length_append, List.length_append]
    refine Nat.add_le_add ?_ ih
    cases p with
    | char c => exact Nat.le_refl _
    | check k =>
      simp [Piece.render, BareCheck.text, BareCheck.qualified]
      omega

/-- Qualifying takes nothing back of what branding puts in. -/
theorem qualifyChecks_brandModule_eq_self_iff (b : Brand) {text : List Char}
    (hnul : '\x00' ∉ text) (hqualified : qualifyChecks b.target text = text) :
    qualifyChecks b.target (brandModule b text) = text ↔ brandModule b text = text := by
  refine ⟨fun h => ?_, fun h => by rw [h, hqualified]⟩
  have htext : expand placeholder (stageAll moduleShapes (nameCells text)) = text := by
    rw [(claimed_stageAll moduleShapes (nameCells text)).expand_eq, expand_nameCells]
  have hlength : (brandModule b text).length ≤ text.length := by
    nth_rewrite 2 [← h]
    exact length_le_length_qualifyChecks b _
  have hpoints : pointsFrom 0 (stageAll moduleShapes (nameCells text)) = [] := by
    refine b.pointsFrom_eq_nil_of_length_le ?_
    rwa [htext, ← cells_eq_nameCells hnul]
  rw [brandModule, brandShapes, cells_eq_nameCells hnul, (b.expand_eq_iff 0 _).2 hpoints, htext]

/-- A second run changes nothing exactly where, before the checks are qualified, the text behind its
declaration holds no reference and no documentation tag is in reach of a check. -/
theorem brandEntryHelper_brandEntryHelper_eq_iff (b : Brand) {text : List Char}
    (hnul : '\x00' ∉ text) :
    ∃ headed, Headed b text (Opens b text) headed ∧
      (brandEntryHelper b (brandEntryHelper b text) = brandEntryHelper b text ↔
        Unreferenced headed ∧ ∀ (k : BareCheck) (before : List Char),
          k.StandsIn headed before → ¬ DocTagInReach before) := by
  obtain ⟨headed, hheaded, hhelper⟩ := exists_headed_brandEntryHelper b text
  obtain ⟨pieces, hreads, hqualify⟩ := exists_reads headed
  have hnul' := nul_not_mem_brandEntryHelper b hnul
  have hqualified : qualifyChecks b.target (brandEntryHelper b text) = brandEntryHelper b text := by
    rw [hhelper, qualifyChecks_qualifyChecks]
  refine ⟨headed, hheaded, ?_⟩
  rw [brandEntryHelper_brandEntryHelper b hnul,
    qualifyChecks_brandModule_eq_self_iff b hnul' hqualified, brandModule_eq_self_iff b hnul',
    hhelper, hqualify, unreferenced_qualified_iff, hreads.spells]
  refine and_congr_right fun _ => ?_
  constructor
  · intro h k before hstands
    obtain ⟨front, rest, hpieces, rfl⟩ := hreads.standsIn_iff.1 hstands
    exact h front k rest hpieces
  · intro h front k rest hpieces
    exact h k _ (hreads.standsIn_iff.2 ⟨front, rest, hpieces, rfl⟩)

/-- A helper without references, whose one check stands behind no tag. -/
theorem brandEntryHelper_brandEntryHelper_eq_iff_one_check :
    '\x00' ∉ "<?php\nif (! function_exists('wplite')) {}\n".toList ∧
      ∃ headed, Headed ⟨"Acme", by decide⟩ "<?php\nif (! function_exists('wplite')) {}\n".toList
          (Opens ⟨"Acme", by decide⟩ "<?php\nif (! function_exists('wplite')) {}\n".toList) headed ∧
        Unreferenced headed ∧ ∀ (k : BareCheck) (before : List Char),
          k.StandsIn headed before → ¬ DocTagInReach before := by
  have hnul : '\x00' ∉ "<?php\nif (! function_exists('wplite')) {}\n".toList := by decide
  obtain ⟨headed, hheaded, hiff⟩ :=
    brandEntryHelper_brandEntryHelper_eq_iff ⟨"Acme", by decide⟩ hnul
  refine ⟨hnul, headed, hheaded, hiff.1 ?_⟩
  rw [brandEntryHelper_brandEntryHelper _ hnul]
  decide +kernel

/-- The header moves an import to the start of a line, and qualifying a check behind a
documentation tag makes a documented type of it. Either way the second run finds a reference that
the first one did not. -/
theorem brandEntryHelper_brandEntryHelper_ne :
    '\x00' ∉ "<?php use WPLite\\X;\n".toList ∧
      brandEntryHelper ⟨"Acme", by decide⟩
          (brandEntryHelper ⟨"Acme", by decide⟩ "<?php use WPLite\\X;\n".toList) ≠
        brandEntryHelper ⟨"Acme", by decide⟩ "<?php use WPLite\\X;\n".toList ∧
      '\x00' ∉ "<?php\n// @see function_exists('foo')\n".toList ∧
      brandEntryHelper ⟨"Acme", by decide⟩
          (brandEntryHelper ⟨"Acme", by decide⟩
            "<?php\n// @see function_exists('foo')\n".toList) ≠
        brandEntryHelper ⟨"Acme", by decide⟩
          "<?php\n// @see function_exists('foo')\n".toList := by
  refine ⟨by decide, ?_, by decide, ?_⟩
  · rw [brandEntryHelper_brandEntryHelper _ (by decide)]
    decide +kernel
  · rw [brandEntryHelper_brandEntryHelper _ (by decide)]
    decide +kernel

end Branding
