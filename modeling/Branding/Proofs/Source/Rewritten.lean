import Branding.Proofs.Source.Insertion
import Branding.Proofs.Source.Passes

/-!
# Reading what was branded

A second run finds the text of the first one: each mark written out as the placeholder with the
brand in front of it. Read into cells again, that is a shadow of the cells of the first run, apart
from the brand itself, which may have the placeholder inside.

What a mark is written as begins with the brand, and an occurrence that was begun before the mark
could run into it. It does not, since no part of the placeholder can stand in front of a mark.

## Main definitions

* `LeadsMarks` — before every mark stands what no part of the placeholder is
* `Brand.rewritten` — a cell of the first run as the second run reads it

## Main results

* `Brand.nameCells_expand` — the cells of the second run
* `Brand.behind_rewritten`, `Brand.ahead_rewritten` — they are a shadow of those of the first
-/

namespace Branding

/-! ### Reading what was written -/

/-- A character that may stand right before a mark. -/
def isLead (c : Char) : Bool := isBlank c || c == separator || c == '\''

theorem Shape.exists_lead_of_leads {s : Shape} {back : List Char} (h : s.leads back) :
    ∃ c rest, back = c :: rest ∧ isLead c = true := by
  cases s with
  | declaration | importation =>
    obtain ⟨⟨c, rest, rfl, hc⟩, -⟩ := h
    exact ⟨c, rest, rfl, by simp [isLead, hc]⟩
  | qualified | documented =>
    obtain ⟨rest, rfl, -⟩ := h
    exact ⟨_, rest, rfl, by decide⟩
  | escaped =>
    obtain ⟨rest, rfl⟩ := h
    exact ⟨_, _, rfl, by decide⟩
  | loaderLiteral =>
    obtain ⟨rest, rfl⟩ := h
    exact ⟨_, rest, rfl, by decide⟩

/-- The text before the cells, and that of the cells, has a leading character before each mark. -/
def LeadsMarks (before : List Char) (cells : List Cell) : Prop :=
  ∀ front m rest, cells = front ++ .mark m :: rest →
    ∃ c ∈ (before ++ expand placeholder front).getLast?, isLead c = true

theorem Led.leadsMarks {shapes : List Shape} {cells : List Cell} (h : Led shapes cells) :
    LeadsMarks [] cells := by
  intro front m rest heq
  obtain ⟨s, -, -, hlead⟩ := h front m rest heq
  obtain ⟨c, back, hback, hc⟩ := Shape.exists_lead_of_leads hlead
  refine ⟨c, ?_, hc⟩
  rw [List.nil_append, ← List.head?_reverse, hback]
  rfl

theorem LeadsMarks.tail {before : List Char} {c : Cell} {cells : List Cell}
    (h : LeadsMarks before (c :: cells)) : LeadsMarks (before ++ c.expand placeholder) cells := by
  rintro front m rest rfl
  have hfront := h (c :: front) m rest rfl
  rwa [expand_cons, ← List.append_assoc] at hfront

/-- A word that holds no leading character and follows none ends before the first mark. So it does
not matter what the marks stand for. -/
theorem prefix_expand_placeholder {target word before : List Char} {cells : List Cell}
    (hword : ∀ c ∈ word, isLead c = false) (hbefore : ∀ c ∈ before.getLast?, isLead c = false)
    (hled : LeadsMarks before cells) (h : word <+: expand target cells) :
    word <+: expand placeholder cells := by
  induction cells generalizing word before with
  | nil => exact h
  | cons c cells ih =>
    match c with
    | .char a =>
      cases word with
      | nil => exact List.nil_prefix
      | cons b word =>
        rw [expand_cons, Cell.expand, List.singleton_append, List.cons_prefix_cons] at h ⊢
        obtain ⟨rfl, h⟩ := h
        refine ⟨rfl, ih (fun c hc => hword c (by simp [hc])) ?_ hled.tail h⟩
        simpa [Cell.expand] using hword b (by simp)
    | .name =>
      rw [expand_cons, Cell.expand] at h ⊢
      rcases List.prefix_or_prefix_of_prefix h (List.prefix_append placeholder _) with
        hp | ⟨word, rfl⟩
      · exact hp.trans (List.prefix_append placeholder _)
      · rw [List.prefix_append_right_inj] at h ⊢
        refine ih (fun c hc => hword c (by simp [hc])) ?_ hled.tail h
        intro c hc
        rw [Cell.expand, List.getLast?_append_of_ne_nil _ (by decide)] at hc
        obtain rfl : 'e' = c := by simpa [placeholder] using hc
        decide
    | .mark m =>
      obtain ⟨c, hc, hlead⟩ := hled [] m cells rfl
      rw [expand_nil, List.append_nil] at hc
      rw [hbefore c hc] at hlead
      cases hlead

/-- A character that is none of the placeholder's parts the cells of a text. -/
theorem nameCells_append_cons {c : Char} (hc : c ∉ placeholder) (text rest : List Char) :
    nameCells (text ++ c :: rest) = nameCells text ++ .char c :: nameCells rest := by
  induction text using occurrence_induction with
  | nil =>
    rw [List.nil_append, nameCells_cons (not_isPrefix_placeholder _ rest)]
    · rfl
    · rintro rfl
      exact hc (by decide)
  | occurrence text ih =>
    rw [List.append_assoc, nameCells_placeholder_append, nameCells_placeholder_append, ih]
    rfl
  | cons a text h ih =>
    have hnot : ¬ placeholder <+: a :: (text ++ c :: rest) := by
      intro hp
      rcases List.prefix_or_prefix_of_prefix hp (List.prefix_append (a :: text) (c :: rest)) with
        hp' | ⟨part, hpart⟩
      · exact h hp'
      · rw [← hpart, ← List.cons_append, List.prefix_append_right_inj] at hp
        cases part with
        | nil => exact h ⟨[], by simpa using hpart.symm⟩
        | cons b part =>
          obtain ⟨rfl, -⟩ := List.cons_prefix_cons.1 hp
          exact hc (hpart ▸ by simp)
    rw [List.cons_append, nameCells_cons hnot, nameCells_cons h, ih]
    rfl

/-- Every occurrence begins with the first letter of the placeholder, so a text without it is
characters only. -/
theorem nameCells_append_of_not_mem {u : List Char} (h : 'W' ∉ u) (v : List Char) :
    nameCells (u ++ v) = u.map .char ++ nameCells v := by
  induction u with
  | nil => rfl
  | cons c u ih =>
    rw [List.mem_cons, not_or] at h
    rw [List.cons_append, nameCells_cons (not_isPrefix_placeholder (Ne.symm h.1) _), ih h.2,
      List.map_cons, List.cons_append]

theorem mem_nameCells {c : Cell} {text : List Char} (h : c ∈ nameCells text) :
    c = .name ∨ ∃ a ∈ text, c = .char a := by
  induction text using occurrence_induction with
  | nil => cases h
  | occurrence text ih =>
    rw [nameCells_placeholder_append, List.mem_cons] at h
    rcases h with rfl | h
    · exact Or.inl rfl
    · exact (ih h).imp id fun ⟨a, ha, hca⟩ => ⟨a, by simp [ha], hca⟩
  | cons a text hp ih =>
    rw [nameCells_cons hp, List.mem_cons] at h
    rcases h with rfl | h
    · exact Or.inr ⟨a, by simp, rfl⟩
    · exact (ih h).imp id fun ⟨a, ha, hca⟩ => ⟨a, by simp [ha], hca⟩

/-! ### The cells of the second run -/

/-- How many separators a mark is written with. -/
def Mark.separators : Mark → Nat
  | .plain => 1
  | .doubled => 2

namespace Brand

theorem inFront_eq (b : Brand) (m : Mark) :
    b.inFront m = b.name.toList ++ List.replicate m.separators separator := by
  cases m <;> rfl

theorem nameCells_inFront_append (b : Brand) (m : Mark) (rest : List Char) :
    nameCells (b.inFront m ++ rest) =
      nameCells b.name.toList ++ List.replicate m.separators (.char separator) ++
        nameCells rest := by
  have hsep : separator ∉ placeholder := by decide
  have hhead : ∀ text, nameCells (separator :: text) = .char separator :: nameCells text :=
    fun text => nameCells_append_cons hsep [] text
  cases m with
  | plain => simp [inFront, nameCells_append_cons hsep, Mark.separators]
  | doubled => simp [inFront, nameCells_append_cons hsep, Mark.separators, hhead]

/-- A cell of the first run, as the second run reads it. -/
def rewritten (b : Brand) : Cell → List Cell
  | .mark m =>
    nameCells b.name.toList ++ List.replicate m.separators (.char separator) ++ [.name]
  | c => [c]

/-- What the second run reads. -/
theorem nameCells_expand (b : Brand) {text before : List Char} {cells : List Cell}
    (hclaimed : Claimed (nameCells text) cells) (hled : LeadsMarks before cells) :
    nameCells (expand b.target cells) = cells.flatMap b.rewritten := by
  induction text using occurrence_induction generalizing before cells with
  | nil =>
    cases hclaimed
    rfl
  | occurrence text ih =>
    rw [nameCells_placeholder_append] at hclaimed
    cases hclaimed with
    | @cons _ c _ cells hc hclaimed =>
      rw [expand_cons, List.flatMap_cons, ← ih hclaimed hled.tail]
      cases hc with
      | same => exact nameCells_placeholder_append _
      | mark m =>
        rw [b.expand_mark, List.append_assoc, nameCells_inFront_append,
          nameCells_placeholder_append]
        simp [rewritten]
  | cons a text hp ih =>
    rw [nameCells_cons hp] at hclaimed
    cases hclaimed with
    | @cons _ c _ cells hc hclaimed =>
      cases hc
      rw [expand_cons, List.flatMap_cons, ← ih hclaimed hled.tail]
      refine nameCells_cons fun hp' => hp ?_
      obtain ⟨rfl, hrest⟩ := List.cons_prefix_cons.1 hp'
      have hword : ∀ c ∈ ['P', 'L', 'i', 't', 'e'], isLead c = false := by
        simp only [List.forall_mem_cons, List.not_mem_nil, false_implies, implies_true, and_true]
        decide
      have hlast : ∀ c ∈ (before ++ ['W']).getLast?, isLead c = false := by
        simp
        decide
      have htail := prefix_expand_placeholder hword hlast hled.tail hrest
      rw [Claimed.expand_eq hclaimed, expand_nameCells] at htail
      exact List.cons_prefix_cons.2 ⟨rfl, htail⟩

theorem exists_name_eq_cons (b : Brand) :
    ∃ first rest, b.name.toList = first :: rest ∧ isNameStart first = true := by
  have hname := b.identifier
  cases htext : b.name.toList with
  | nil =>
    rw [htext] at hname
    cases hname
  | cons first rest =>
    rw [htext, isIdentifier, Bool.and_eq_true] at hname
    exact ⟨first, rest, rfl, hname.1⟩

/-- The first cell of a brand begins a name. -/
theorem exists_nameCells_eq_cons (b : Brand) :
    ∃ c rest, nameCells b.name.toList = c :: rest ∧ c.startsName = true := by
  obtain ⟨a, text, htext, hstart⟩ := b.exists_name_eq_cons
  rw [htext]
  by_cases hp : placeholder <+: a :: text
  · obtain ⟨rest, hrest⟩ := hp
    exact ⟨.name, nameCells rest, by rw [← hrest, nameCells_placeholder_append], rfl⟩
  · exact ⟨.char a, nameCells text, nameCells_cons hp, hstart⟩

/-- The second run reads a shadow of what was before an occurrence. -/
theorem behind_rewritten (b : Brand) (cells : List Cell) :
    Behind cells.reverse (cells.flatMap b.rewritten).reverse := by
  rw [List.reverse_flatMap]
  generalize cells.reverse = back
  induction back with
  | nil => exact .nil
  | cons c back ih =>
    match c with
    | .char a => exact .char a ih
    | .name => exact .bare nofun ih
    | .mark m =>
      have hm : ∀ a, Cell.mark m ≠ .char a := nofun
      cases m with
      | plain => simpa [rewritten, Mark.separators] using Behind.led hm
      | doubled => simpa [rewritten, Mark.separators] using Behind.led hm

/-- The second run reads a shadow of what was after an occurrence. -/
theorem ahead_rewritten (b : Brand) (cells : List Cell) :
    Ahead cells (cells.flatMap b.rewritten) := by
  induction cells with
  | nil => exact .nil
  | cons c cells ih =>
    match c with
    | .char a => exact .char a ih
    | .name => exact .other nofun rfl
    | .mark m =>
      obtain ⟨d, rest, hcells, hd⟩ := b.exists_nameCells_eq_cons
      rw [List.flatMap_cons, rewritten, hcells]
      exact .other nofun hd

end Brand

end Branding
