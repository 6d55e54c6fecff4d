import Branding.Proofs.Source.Kept

/-!
# The entry helper, opened in the target namespace

Branding takes the helper through three phases. The shapes of an ordinary file leave the opening tag
in place, and every declaration. Where there was none, a declaration is put behind the tag, and it
is the first. The checks are qualified last, and that neither moves nor alters a declaration.

Whether there is a place for a declaration is asked of the branded text. That makes a difference
only where the written form of a mark makes up the tag, so it makes none in a text without NUL
characters.

## Main definitions

* `Opens` — branding opens the helper with a declaration
* `Headed` — a branded text behind the declaration it is opened with

## Main results

* `exists_headed_brandEntryHelper` — the helper before its checks are qualified
* `exists_render_brandEntryHelper` — what becomes of the helper
-/

namespace Branding

/-! ### The header -/

theorem openHeader_eq (b : Brand) :
    openHeader b.target = "<?php\n\n".toList ++
      (declarationKeyword ++ (b.name.toList ++ subspace [placeholder] ++ ';' :: ['\n', '\n'])) := by
  have hkeyword : openingTag ++ "\n\nnamespace ".toList =
      "<?php\n\n".toList ++ declarationKeyword := by decide
  rw [openHeader, hkeyword, Brand.target, subspace_cons, subspace_nil]
  simp only [List.append_assoc, List.append_nil, List.cons_append]
  rfl

/-- The header declares the target, whatever comes behind it. -/
theorem declaredNamespace?_openHeader_append (b : Brand) (rest : List Char) :
    declaredNamespace? (openHeader b.target ++ rest) = some b.target := by
  have hlead : EndsAtLineStart "<?php\n\n".toList := Or.inr ⟨"<?php\n".toList, rfl⟩
  have hnone : declaredNamespace? "<?php\n\n".toList = none := by decide
  have htext : openHeader b.target ++ rest = "<?php\n\n".toList ++ (declarationKeyword ++
      (b.name.toList ++ subspace [placeholder] ++ ';' :: '\n' :: '\n' :: rest)) := by
    rw [openHeader_eq]
    simp
  rw [htext, declaredNamespace?_declaration hlead hnone b.identifier (by decide)]
  simp [Brand.target]

/-- The header makes no check with what comes behind it. -/
theorem callFree_openHeader (b : Brand) (after : List Char) :
    CallFree (openHeader b.target) after := by
  have htext : openHeader b.target = "<?php\n\nnamespace ".toList ++ b.name.toList ++
      (separator :: (placeholder ++ ";\n\n".toList)) := by
    simp [openHeader, openingTag, Brand.target]
  rw [htext]
  refine .append (.append (.of_not_mem (by decide)) (.of_name ?_ (by decide)))
    (.of_not_mem (by decide))
  exact fun c hc => b.isNameChar_of_mem hc

/-! ### The helper -/

/-- Branding opens a helper with a declaration: the helper names no namespace, and once it is
branded it begins with the opening tag. -/
def Opens (b : Brand) (text : List Char) : Prop :=
  declaredNamespace? text = none ∧ openingTag <+: brandModule b text

/-- The branded text, with the opening tag and all white space behind it replaced by the header
where that is to be done. -/
def Headed (b : Brand) (text : List Char) (opened : Prop) (headed : List Char) : Prop :=
  (opened → ∃ white rest, brandModule b text = openingTag ++ white ++ rest ∧
      (∀ c ∈ white, isWhite c = true) ∧ (∀ c ∈ rest.head?, isWhite c = false) ∧
        headed = openHeader b.target ++ rest) ∧
    (¬ opened → headed = brandModule b text)

theorem exists_headed_brandEntryHelper (b : Brand) (text : List Char) :
    ∃ headed, Headed b text (Opens b text) headed ∧
      brandEntryHelper b text = qualifyChecks b.target headed := by
  rw [brandEntryHelper]
  by_cases hdeclared : declaredNamespace? text = none
  · rw [hdeclared, if_neg (by simp), inject?]
    cases hafter : afterWord? openingTag (brandModule b text) with
    | none =>
      refine ⟨brandModule b text, ⟨fun h => ?_, fun _ => rfl⟩, rfl⟩
      obtain ⟨rest, hrest⟩ := h.2
      rw [← hrest, afterWord?_append] at hafter
      cases hafter
    | some rest =>
      rw [afterWord?_eq_some_iff] at hafter
      refine ⟨openHeader b.target ++ rest.dropWhile isWhite, ⟨fun _ => ?_, fun h => ?_⟩, rfl⟩
      · refine ⟨rest.takeWhile isWhite, rest.dropWhile isWhite, ?_, ?_, ?_, rfl⟩
        · rw [hafter, List.append_assoc, List.takeWhile_append_dropWhile]
        · exact fun c hc => List.mem_takeWhile_imp hc
        · intro c hc
          have h := List.head?_dropWhile_not isWhite rest
          rwa [Option.mem_def.1 hc] at h
      · exact absurd ⟨hdeclared, rest, hafter.symm⟩ h
  · refine ⟨brandModule b text, ⟨fun h => absurd h.1 hdeclared, fun _ => rfl⟩, ?_⟩
    rw [if_pos (Option.isSome_iff_ne_none.2 hdeclared)]

/-- Qualifying the checks of a text leaves what the text declares. -/
theorem declaredNamespace?_qualifyChecks (b : Brand) (text : List Char) :
    declaredNamespace? (qualifyChecks b.target text) = declaredNamespace? text := by
  obtain ⟨pieces, hreads, hqualify⟩ := exists_reads text
  rw [hqualify, declaredNamespace?_render (writesCalls_qualified b) writesCalls_text,
    hreads.spells]

/-- What is opened declares the target. -/
theorem Headed.declaredNamespace?_eq {b : Brand} {text headed : List Char}
    (h : Headed b text (Opens b text) headed) (hopens : Opens b text) :
    declaredNamespace? headed = some b.target := by
  obtain ⟨white, rest, -, -, -, rfl⟩ := h.1 hopens
  exact declaredNamespace?_openHeader_append b rest

/-- The helper declares nothing only where nothing was declared and no opening tag came first. -/
theorem declaredNamespace?_brandEntryHelper_eq_none (b : Brand) {text : List Char}
    (h : declaredNamespace? (brandEntryHelper b text) = none) :
    declaredNamespace? text = none ∧ ¬ openingTag <+: text := by
  obtain ⟨headed, hheaded, hhelper⟩ := exists_headed_brandEntryHelper b text
  rw [hhelper, declaredNamespace?_qualifyChecks] at h
  have hnot : ¬ Opens b text := by
    intro hopens
    rw [hheaded.declaredNamespace?_eq hopens] at h
    cases h
  rw [hheaded.2 hnot] at h
  have hdeclared : declaredNamespace? text = none := by
    rw [← Option.not_isSome_iff_eq_none]
    intro hsome
    have hbranded := isSome_declaredNamespace?_brandModule b hsome
    rw [h] at hbranded
    cases hbranded
  exact ⟨hdeclared, fun htag =>
    hnot ⟨hdeclared, openingTag_isPrefix_brandModule b htag⟩⟩

/-- What becomes of the helper, in characters and checks: the branded text, opened with a
declaration where it has a place and none of its own, and every check in it qualified. No check on a
bare name is left. A declaration that was put in is the one the result declares, and otherwise the
result declares what it would without the checks touched; it declares nothing only where nothing was
declared and no opening tag came first. -/
theorem exists_render_brandEntryHelper (b : Brand) (text : List Char) :
    ∃ headed pieces, Headed b text (Opens b text) headed ∧
      render BareCheck.text pieces = headed ∧
      brandEntryHelper b text = render (BareCheck.qualified b.target) pieces ∧
      (∀ (k : BareCheck) (before : List Char), k.StandsIn headed before ↔
        ∃ front rest, pieces = front ++ .check k :: rest ∧
          before = render BareCheck.text front) ∧
      (∀ (k : BareCheck) (before : List Char), ¬ k.StandsIn (brandEntryHelper b text) before) ∧
      (Opens b text → declaredNamespace? (brandEntryHelper b text) = some b.target ∧
        ∃ body, brandEntryHelper b text = openHeader b.target ++ body ∧
          ∀ c ∈ body.head?, isWhite c = false) ∧
      (¬ Opens b text →
        declaredNamespace? (brandEntryHelper b text) = declaredNamespace? headed) ∧
      (declaredNamespace? (brandEntryHelper b text) = none →
        declaredNamespace? text = none ∧ ¬ openingTag <+: text) ∧
      ('\x00' ∉ text → (openingTag <+: brandModule b text ↔ openingTag <+: text)) := by
  obtain ⟨headed, hheaded, hhelper⟩ := exists_headed_brandEntryHelper b text
  obtain ⟨pieces, hreads, hqualify⟩ := exists_reads headed
  have hsame : declaredNamespace? (brandEntryHelper b text) = declaredNamespace? headed := by
    rw [hhelper, declaredNamespace?_qualifyChecks]
  refine ⟨headed, pieces, hheaded, hreads.spells, hhelper.trans (hqualify _),
    fun k before => hreads.standsIn_iff, fun k before => ?_, fun hopens => ⟨?_, ?_⟩,
    fun _ => hsame, declaredNamespace?_brandEntryHelper_eq_none b,
    openingTag_isPrefix_brandModule_iff b⟩
  · rw [hhelper, hqualify]
    exact hreads.not_standsIn_qualified b k before
  · rw [hsame, hheaded.declaredNamespace?_eq hopens]
  · -- no check begins in the header, so what comes behind it is written by the other pieces
    obtain ⟨white, rest, -, -, hrest, rfl⟩ := hheaded.1 hopens
    obtain ⟨more, rfl, hmore⟩ :=
      writesCalls_text.exists_of_callFree (callFree_openHeader b rest) hreads.spells
    refine ⟨render (BareCheck.qualified b.target) more, ?_, ?_⟩
    · rw [hhelper, hqualify, render_append, render_map_char]
    · rwa [head?_render (writesCalls_qualified b) writesCalls_text, hmore]

/-- It is the branded text that has to begin with the opening tag. The written form of a mark can
make up the tag, and then a text is opened that did not begin with it. -/
theorem not_exists_headed_of_mark :
    ¬ ∃ headed pieces,
      Headed ⟨"php", by decide⟩ "<?\x00NSBRAND_TARGET\x00".toList
        (declaredNamespace? "<?\x00NSBRAND_TARGET\x00".toList = none ∧
          openingTag <+: "<?\x00NSBRAND_TARGET\x00".toList) headed ∧
      render BareCheck.text pieces = headed ∧
      brandEntryHelper ⟨"php", by decide⟩ "<?\x00NSBRAND_TARGET\x00".toList =
        render (BareCheck.qualified (Brand.target ⟨"php", by decide⟩)) pieces := by
  rintro ⟨headed, pieces, hheaded, hspells, hhelper⟩
  have hmodule : brandModule ⟨"php", by decide⟩ "<?\x00NSBRAND_TARGET\x00".toList =
      "<?php\\WPLite".toList := by decide
  have htag : ¬ openingTag <+: "<?\x00NSBRAND_TARGET\x00".toList := by decide
  obtain rfl := hheaded.2 fun h => htag h.2
  rw [hmodule, ← List.append_nil "<?php\\WPLite".toList] at hspells
  have hfree : CallFree "<?php\\WPLite".toList [] := .of_not_mem (by decide)
  obtain ⟨rest, rfl, hrest⟩ := writesCalls_text.exists_of_callFree hfree hspells
  have hnil : rest = [] := by
    cases rest with
    | nil => rfl
    | cons p rest =>
      cases p with
      | char c => cases hrest
      | check k =>
        obtain ⟨tail, hk, -⟩ := writesCalls_text.exists_cons k
        simp [Piece.render, hk] at hrest
  rw [hnil, List.append_nil, render_map_char] at hhelper
  exact absurd hhelper (by decide +kernel)

end Branding
