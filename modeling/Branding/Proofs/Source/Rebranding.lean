import Branding.Proofs.Source.Rewritten

/-!
# Branding what has been branded

After the first run the shapes are quiet, also on the shadow that the second run reads. What is left
are the occurrences that the first run wrote: those inside a brand and the one behind it. In a brand
an occurrence touches a name, and no shape recognises that; the one behind a brand is the tail of a
longer name. So the second run changes nothing, whatever the second brand is.

The placeholder is an identifier too, and the one brand for which this fails: its own occurrence,
in front of the one that was there, is read as the next reference.

## Main definitions

* `Cell.isNamePart` — an occurrence, or a name character

## Main results

* `brandShapes_brandShapes` — a second run changes nothing
* `rebranding_iff` — this holds exactly where the first brand is not the placeholder
-/

namespace Branding

/-! ### No reference touches a name -/

/-- An occurrence, or a name character. -/
def Cell.isNamePart : Cell → Bool
  | .char c => isNameChar c
  | .name => true
  | .mark _ => false

theorem Brand.isNamePart_of_mem (b : Brand) {c : Cell} (h : c ∈ nameCells b.name.toList) :
    c.isNamePart = true := by
  rcases mem_nameCells h with rfl | ⟨a, ha, rfl⟩
  · rfl
  · exact b.isNameChar_of_mem ha

theorem isNameChar_eq_false_of_isLead {c : Char} (h : isLead c = true) : isNameChar c = false := by
  simp only [isLead, isBlank, Bool.or_eq_true, beq_iff_eq] at h
  rcases h with ((rfl | rfl) | rfl) | rfl <;> decide

theorem Cell.isBlank_eq_false_of_isNamePart {c : Cell} (h : c.isNamePart = true) :
    c.isBlank = false := by
  match c with
  | .name | .mark _ => rfl
  | .char a =>
    rw [Bool.eq_false_iff]
    intro hblank
    have hlead : isLead a = true := by
      rw [isLead, Bool.or_eq_true, Bool.or_eq_true]
      exact Or.inl (Or.inl hblank)
    rw [isNamePart, isNameChar_eq_false_of_isLead hlead] at h
    cases h

theorem Shape.recognises_namePart_before (s : Shape) {c : Cell} (hc : c.isNamePart = true)
    (before after : List Cell) : s.recognises (c :: before) after = false := by
  rw [Bool.eq_false_iff]
  intro h
  obtain ⟨a, rest, hback, ha⟩ := exists_lead_of_leads (leads_of_recognises h)
  have hname := isNameChar_eq_false_of_isLead ha
  rw [spellBack_cons] at hback
  match c with
  | .char x =>
    obtain ⟨rfl, -⟩ := List.cons.inj hback
    rw [Cell.isNamePart, hname] at hc
    cases hc
  | .name =>
    obtain ⟨rfl, -⟩ := List.cons.inj hback
    exact absurd hname (by decide)

theorem Shape.recognises_namePart_after (s : Shape) {c : Cell} (hc : c.isNamePart = true)
    (before after : List Cell) : s.recognises before (c :: after) = false := by
  have hsep : c ≠ .char separator := by
    rintro rfl
    exact absurd hc (by decide)
  have hsep' : ∀ {k : Nat} {a : List Cell},
      c :: after ≠ List.replicate (k + 1) (.char separator) ++ a :=
    fun h => hsep (List.cons.inj h).1
  rw [Bool.eq_false_iff]
  intro h
  cases s with
  | declaration =>
    obtain ⟨-, a, rest, hrest, ha⟩ := recognisesDeclaration_iff.1 h
    rw [List.dropWhile_cons, if_neg (by simp [Cell.isBlank_eq_false_of_isNamePart hc])] at hrest
    obtain ⟨rfl, -⟩ := List.cons.inj hrest
    rcases ha with rfl | rfl | rfl <;> exact absurd hc (by decide)
  | importation =>
    rw [recognises, recognisesImportation, Bool.and_eq_true] at h
    exact hsep (Option.some.inj (beq_iff_eq.1 h.2))
  | qualified =>
    obtain ⟨b, a, -, ha, -⟩ := recognisesQualified_iff.1 h
    exact hsep' ha
  | documented =>
    obtain ⟨b, a, -, ha, -⟩ := recognisesDocumented_iff.1 h
    exact hsep (List.cons.inj ha).1
  | escaped =>
    obtain ⟨b, a, -, ha, -⟩ := recognisesEscaped_iff.1 h
    exact hsep' ha
  | loaderLiteral =>
    obtain ⟨b, a, -, ha, -⟩ := recognisesLoaderLiteral_iff.1 h
    exact hsep (List.cons.inj ha).1

/-! ### No reference stands right behind a brand -/

theorem Cell.continuesName_of_isNamePart {c : Cell} (h : c.isNamePart = true) :
    c.continuesName = true := by
  match c with
  | .name => rfl
  | .char a =>
    rw [continuesName, Bool.or_eq_true]
    exact Or.inl h

/-- The search for a documentation tag passes over names. -/
theorem afterDocTag_nameParts_append {names : List Cell} (h : ∀ c ∈ names, c.isNamePart = true)
    {before : List Cell} (hdoc : afterDocTag (names ++ before) = true) :
    afterDocTag before = true := by
  induction names with
  | nil => exact hdoc
  | cons c names ih =>
    rw [List.forall_mem_cons] at h
    rw [List.cons_append, afterDocTag, Cell.isBlank_eq_false_of_isNamePart h.1, Bool.false_and,
      Bool.false_or, Bool.and_eq_true] at hdoc
    exact ih h.2 hdoc.2

/-- Where a plain mark is led, no documentation tag is in reach. -/
theorem Shape.afterDocTag_of_leads {s : Shape} (hs : s.mark = .plain) {back : List Char}
    (h : s.leads back) : afterDocTag (back.map .char) = false := by
  cases s with
  | declaration | importation => exact h.2
  | qualified | documented =>
    obtain ⟨rest, rfl, -⟩ := h
    rfl
  | escaped | loaderLiteral => cases hs

theorem standsFree_namePart {c : Cell} (h : c.isNamePart = true) (before : List Cell) :
    standsFree (c :: before) = false := by
  simp [standsFree, Cell.continuesName_of_isNamePart h]

/-- Behind one separator and a name no shape recognises anything, unless a documentation tag is in
reach. -/
theorem Shape.recognises_behind_plain (s : Shape) {c : Cell} (hc : c.isNamePart = true)
    {before : List Cell} (hdoc : afterDocTag (c :: before) = false) (after : List Cell) :
    s.recognises (.char separator :: c :: before) after = false := by
  rw [Bool.eq_false_iff]
  intro h
  cases s with
  | declaration | importation =>
    obtain ⟨⟨a, rest, hback, ha⟩, -⟩ := leads_of_recognises h
    obtain ⟨rfl, -⟩ := List.cons.inj ((spellBack_cons _ _).symm.trans hback)
    exact absurd ha (by decide)
  | loaderLiteral =>
    obtain ⟨rest, hback⟩ := leads_of_recognises h
    exact absurd (List.cons.inj ((spellBack_cons _ _).symm.trans hback)).1 (by decide)
  | qualified =>
    obtain ⟨b, a, hb, -, -, hfree⟩ := recognisesQualified_iff.1 h
    obtain rfl : c :: before = b := (List.cons.inj hb).2
    rw [standsFree_namePart hc] at hfree
    cases hfree
  | escaped =>
    obtain ⟨b, a, hb, -⟩ := recognisesEscaped_iff.1 h
    obtain ⟨rfl, -⟩ := List.cons.inj (List.cons.inj hb).2
    exact absurd hc (by decide)
  | documented =>
    obtain ⟨b, a, hb, -, hfound⟩ := recognisesDocumented_iff.1 h
    obtain rfl : c :: before = b := (List.cons.inj hb).2
    rw [hdoc] at hfound
    cases hfound

/-- Behind two separators and a name no shape recognises anything. -/
theorem Shape.recognises_behind_doubled (s : Shape) {c : Cell} (hc : c.isNamePart = true)
    (before after : List Cell) :
    s.recognises (.char separator :: .char separator :: c :: before) after = false := by
  rw [Bool.eq_false_iff]
  intro h
  cases s with
  | declaration | importation =>
    obtain ⟨⟨a, rest, hback, ha⟩, -⟩ := leads_of_recognises h
    obtain ⟨rfl, -⟩ := List.cons.inj ((spellBack_cons _ _).symm.trans hback)
    exact absurd ha (by decide)
  | loaderLiteral =>
    obtain ⟨rest, hback⟩ := leads_of_recognises h
    exact absurd (List.cons.inj ((spellBack_cons _ _).symm.trans hback)).1 (by decide)
  | qualified =>
    obtain ⟨b, a, hb, -, -, hfree⟩ := recognisesQualified_iff.1 h
    obtain rfl : Cell.char separator :: c :: before = b := (List.cons.inj hb).2
    cases hfree
  | escaped =>
    obtain ⟨b, a, hb, -, -, hfree⟩ := recognisesEscaped_iff.1 h
    obtain rfl : c :: before = b := (List.cons.inj (List.cons.inj hb).2).2
    rw [standsFree_namePart hc] at hfree
    cases hfree
  | documented =>
    obtain ⟨b, a, hb, -, hfound⟩ := recognisesDocumented_iff.1 h
    obtain rfl : Cell.char separator :: c :: before = b := (List.cons.inj hb).2
    cases hfound

/-- So what a mark was written as is not recognised behind the brand, where the text before the
brand has no documentation tag in reach. -/
theorem Brand.recognises_behind (b : Brand) (s : Shape) (m : Mark) {before : List Cell}
    (hdoc : m = .plain → afterDocTag before = false) (after : List Cell) :
    s.recognises
      ((nameCells b.name.toList ++ List.replicate m.separators (Cell.char separator)).reverse ++
        before)
      after = false := by
  have hnames : ∀ c ∈ (nameCells b.name.toList).reverse, c.isNamePart = true :=
    fun c hc => b.isNamePart_of_mem (List.mem_reverse.1 hc)
  have hne : (nameCells b.name.toList).reverse ≠ [] := by
    obtain ⟨c, rest, hcells, -⟩ := b.exists_nameCells_eq_cons
    simp [hcells]
  rw [List.reverse_append, List.reverse_replicate]
  generalize (nameCells b.name.toList).reverse = names at hnames hne
  obtain ⟨c, names, rfl⟩ := List.exists_cons_of_ne_nil hne
  cases m with
  | plain =>
    refine s.recognises_behind_plain (hnames c (by simp)) ?_ after
    rw [Bool.eq_false_iff]
    intro hfound
    have hbeyond := afterDocTag_nameParts_append hnames hfound
    rw [hdoc rfl] at hbeyond
    cases hbeyond
  | doubled => exact s.recognises_behind_doubled (hnames c (by simp)) _ after

/-! ### The second run -/

/-- Where one of several appended lists has something, the appended list has it there. -/
theorem exists_split_of_flatMap_eq {α β : Type} {f : α → List β} {l : List α} {front rest : List β}
    {d : β} (h : l.flatMap f = front ++ d :: rest) :
    ∃ pre c post u v, l = pre ++ c :: post ∧ f c = u ++ d :: v ∧
      front = pre.flatMap f ++ u ∧ rest = v ++ post.flatMap f := by
  induction l generalizing front with
  | nil => simp at h
  | cons c l ih =>
    rw [List.flatMap_cons] at h
    rcases List.append_eq_append_iff.1 h with ⟨part, rfl, hl⟩ | ⟨part, hc, hrest⟩
    · obtain ⟨pre, c', post, u, v, rfl, hc', rfl, rfl⟩ := ih hl
      exact ⟨c :: pre, c', post, u, v, rfl, hc', by simp, rfl⟩
    · cases part with
      | nil =>
        have hl : l.flatMap f = [] ++ d :: rest := hrest.symm
        obtain ⟨pre, c', post, u, v, rfl, hc', hpre, rfl⟩ := ih hl
        obtain ⟨hnil, rfl⟩ := List.append_eq_nil_iff.1 hpre.symm
        refine ⟨c :: pre, c', post, [], v, rfl, hc', ?_, rfl⟩
        rw [List.flatMap_cons, hnil, hc]
        simp only [List.append_nil]
      | cons e part =>
        obtain ⟨rfl, rfl⟩ := List.cons.inj hrest
        exact ⟨[], c, l, front, part, rfl, hc, by simp, rfl⟩

/-- A pass over cells in which the shape recognises nothing leaves them as they are. -/
theorem Shape.stage_eq_self {s : Shape} {cells : List Cell}
    (h : ∀ front rest, cells = front ++ .name :: rest → s.recognises front.reverse rest = false) :
    s.stage cells = cells := by
  suffices haux : ∀ before rest, cells = before.reverse ++ rest →
      s.stageFrom before rest = rest from
    haux [] cells rfl
  intro before rest
  induction rest generalizing before with
  | nil => exact fun _ => rfl
  | cons c rest ih =>
    intro heq
    rw [stageFrom, ih (c :: before) (by simp [heq]), if_neg]
    rintro ⟨rfl, hrec⟩
    have hquiet := h _ _ heq
    rw [List.reverse_reverse, hrec] at hquiet
    cases hquiet

theorem stageAll_eq_self {shapes : List Shape} {cells : List Cell}
    (h : ∀ s ∈ shapes, s.stage cells = cells) : stageAll shapes cells = cells := by
  induction shapes with
  | nil => rfl
  | cons s shapes ih =>
    rw [List.forall_mem_cons] at h
    rw [stageAll, List.foldl_cons, h.1]
    exact ih h.2

namespace Brand

variable (b : Brand) {shapes : List Shape} {cells : List Cell}

/-- Inside a brand no shape recognises anything, unless the brand is the placeholder. -/
theorem recognises_inside (hb : b.name.toList ≠ placeholder) (s : Shape) {front rest : List Cell}
    (hcells : nameCells b.name.toList = front ++ .name :: rest) (before after : List Cell) :
    s.recognises (front.reverse ++ before) (rest ++ after) = false := by
  have hpart : ∀ c ∈ front ++ .name :: rest, c.isNamePart = true :=
    fun c hc => b.isNamePart_of_mem (hcells ▸ hc)
  rcases List.eq_nil_or_concat front with rfl | ⟨front, c, rfl⟩
  · cases rest with
    | nil =>
      refine absurd ?_ hb
      rw [← expand_nameCells placeholder b.name.toList, hcells]
      rfl
    | cons c rest => exact s.recognises_namePart_after (hpart c (by simp)) _ _
  · rw [List.concat_eq_append, List.reverse_append]
    exact s.recognises_namePart_before (hpart c (by simp)) _ _

/-- An occurrence in what a mark becomes is the one that was there, or lies inside the brand. -/
theorem rewritten_mark_eq_append {m : Mark} {u v : List Cell}
    (h : b.rewritten (.mark m) = u ++ .name :: v) :
    (u = nameCells b.name.toList ++ List.replicate m.separators (.char separator) ∧ v = []) ∨
      ∃ v', nameCells b.name.toList = u ++ .name :: v' ∧
        v = v' ++ (List.replicate m.separators (.char separator) ++ [.name]) := by
  have hsep : Cell.name ∉ List.replicate m.separators (.char separator) := by simp
  rcases List.eq_nil_or_concat v with rfl | ⟨v, d, rfl⟩
  · exact Or.inl ⟨(List.append_inj_left' h rfl).symm, rfl⟩
  · rw [rewritten, List.concat_eq_append, ← List.cons_append, ← List.append_assoc] at h
    obtain ⟨hbrand, hlast⟩ := List.append_inj' h rfl
    rcases List.append_eq_append_iff.1 hbrand with ⟨part, rfl, hpart⟩ | ⟨part, hpart, hrest⟩
    · exact absurd (hpart ▸ by simp) hsep
    · cases part with
      | nil => exact absurd (hrest ▸ by simp : Cell.name ∈ [] ++ List.replicate _ _) hsep
      | cons e part =>
        obtain ⟨rfl, rfl⟩ := List.cons.inj hrest
        refine Or.inr ⟨part, hpart, ?_⟩
        rw [List.concat_eq_append, ← hlast]
        exact List.append_assoc ..

/-- Where a plain mark stands the second run finds no documentation tag in reach of the brand. -/
theorem afterDocTag_rewritten (hled : Led shapes cells) {pre post : List Cell}
    (hcells : cells = pre ++ .mark .plain :: post) :
    afterDocTag (pre.flatMap b.rewritten).reverse = false := by
  obtain ⟨s, -, hmark, hlead⟩ := hled pre .plain post hcells
  have hspell := afterDocTag_spellBack pre.reverse
  rw [spellBack, List.reverse_reverse, Shape.afterDocTag_of_leads hmark hlead] at hspell
  rw [Bool.eq_false_iff]
  intro hdoc
  rw [(b.behind_rewritten pre).afterDocTag hdoc] at hspell
  cases hspell

/-- A shape that is quiet on the cells of the first run recognises nothing in those of the
second. -/
theorem stage_rewritten (hb : b.name.toList ≠ placeholder) (hled : Led shapes cells) {s : Shape}
    (hquiet : Quiet s cells) : s.stage (cells.flatMap b.rewritten) = cells.flatMap b.rewritten := by
  refine Shape.stage_eq_self fun front rest heq => ?_
  obtain ⟨pre, c, post, u, v, rfl, hc, rfl, rfl⟩ := exists_split_of_flatMap_eq heq
  rw [List.reverse_append]
  match c with
  | .char a =>
    have hmem : Cell.name ∈ b.rewritten (.char a) := hc ▸ by simp
    simp [rewritten] at hmem
  | .name =>
    have hsingle : [] ++ [Cell.name] = u ++ .name :: v := hc
    cases u with
    | nil =>
      obtain rfl : [] = v := (List.cons.inj hsingle).2
      exact hquiet pre post rfl _ _ (b.behind_rewritten pre) (b.ahead_rewritten post)
    | cons d u => simp at hsingle
  | .mark m =>
    rcases b.rewritten_mark_eq_append hc with ⟨rfl, rfl⟩ | ⟨v, hbrand, rfl⟩
    · refine b.recognises_behind s m (fun hm => ?_) _
      subst hm
      exact b.afterDocTag_rewritten hled rfl
    · rw [List.append_assoc]
      exact b.recognises_inside hb s hbrand _ _

end Brand

/-- What branding puts into a text holds no NUL character. -/
theorem Brand.nul_not_mem_expand (b : Brand) {text : List Char} {cells : List Cell}
    (hclaimed : Claimed (nameCells text) cells) (h : '\x00' ∉ text) :
    '\x00' ∉ expand b.target cells := by
  rw [expand, List.mem_flatMap]
  rintro ⟨c, hc, hmem⟩
  cases c with
  | char a =>
    obtain rfl : '\x00' = a := by simpa [Cell.expand] using hmem
    refine h ?_
    rw [← expand_nameCells placeholder text, ← hclaimed.expand_eq]
    exact List.mem_flatMap.2 ⟨_, hc, hmem⟩
  | name => exact absurd (show '\x00' ∈ placeholder from hmem) (by decide)
  | mark m =>
    rw [b.expand_mark, b.inFront_eq, List.mem_append, List.mem_append] at hmem
    rcases hmem with (hmem | hmem) | hmem
    · exact absurd (b.isNameChar_of_mem hmem) (by decide)
    · exact absurd (List.eq_of_mem_replicate hmem) (by decide)
    · exact absurd hmem (by decide)

/-- A second run changes nothing, where the first brand was not the placeholder. -/
theorem brandShapes_brandShapes {shapes : List Shape} (hord : Shape.InOrder [] shapes) {b : Brand}
    (hb : b.name.toList ≠ placeholder) (q : Brand) {text : List Char} (h : '\x00' ∉ text) :
    brandShapes shapes q.target (brandShapes shapes b.target text) =
      brandShapes shapes b.target text := by
  have hclaimed := claimed_stageAll shapes (nameCells text)
  obtain ⟨hled, hquiet⟩ := quiet_stageAll hord (led_nameCells text) (by simp)
  have hcells := b.nameCells_expand hclaimed hled.leadsMarks
  have hstill : stageAll shapes ((stageAll shapes (nameCells text)).flatMap b.rewritten) =
      (stageAll shapes (nameCells text)).flatMap b.rewritten :=
    stageAll_eq_self fun s hs => b.stage_rewritten hb hled (hquiet s hs)
  have hfirst : brandShapes shapes b.target text =
      expand b.target (stageAll shapes (nameCells text)) := by
    rw [brandShapes, cells_eq_nameCells h]
  rw [hfirst, brandShapes, cells_eq_nameCells (b.nul_not_mem_expand hclaimed h), hcells, hstill,
    ← hcells, expand_nameCells]

/-- Branding what has been branded changes nothing, whatever the second brand is, unless the first
brand was the placeholder itself. -/
theorem rebranding_iff (b : Brand) :
    (∀ text : List Char, '\x00' ∉ text → ∀ q : Brand,
        brandModule q (brandModule b text) = brandModule b text ∧
          brandLoader q (brandLoader b text) = brandLoader b text) ↔
      b.name ≠ "WPLite" := by
  constructor
  · rintro hstill hname
    obtain rfl : b = ⟨"WPLite", by decide⟩ := by
      cases b
      cases hname
      rfl
    have hagain := (hstill "namespace WPLite;".toList (by decide)
      ⟨"WPLite", by decide⟩).1
    exact absurd hagain (by decide)
  · intro hname text hnul q
    have hb : b.name.toList ≠ placeholder := fun hb => hname (String.toList_inj.1 hb)
    exact ⟨brandShapes_brandShapes Shape.inOrder_moduleShapes hb q hnul,
      brandShapes_brandShapes Shape.inOrder_loaderShapes hb q hnul⟩

end Branding
