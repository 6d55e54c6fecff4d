import Branding.Proofs.Source.Alike
import Branding.Proofs.Source.Checks
import Branding.Proofs.Source.Unreferenced

/-!
# References in a text whose checks are qualified

To qualify a check is to write the placeholder into it, with separators on both sides. For most
shapes that makes no reference: the brand stands right before it, so the name does not begin there,
and no keyword does. But the search for a documentation tag goes back over the brand, the quote and
the callee, and if it finds a tag before the check, the placeholder inside is taken for a documented
type.

Everywhere else a shape finds what it found before. A check ends in a bracket and begins with a
letter however it is written, and beyond these no shape looks, with the same exception: the search
for a tag used to go over the check, and now stops at its separators. What it no longer finds behind
the check it finds inside, so whether there is any reference at all can still be told.

## Main definitions

* `DocTagInReach` — a documentation tag before the end of a text, with no separator in between

## Main results

* `WritesCalls.exists_of_occurrence` — an occurrence lies outside all checks, or inside one
* `unreferenced_qualified_iff` — where the text with its checks qualified holds no reference
-/

namespace Branding

/-! ### Documentation tags -/

/-- A documentation tag is in reach of the end of a text: the tag, blanks, and then no separator and
no line end. -/
def DocTagInReach (before : List Char) : Prop :=
  ∃ lead tag gap run, tag ∈ referenceTags ∧ gap ≠ [] ∧ Blanks gap ∧
    (∀ c ∈ run, c ≠ separator ∧ c ≠ '\r' ∧ c ≠ '\n') ∧ before = lead ++ '@' :: tag ++ gap ++ run

theorem docTagInReach_iff {before : List Char} :
    DocTagInReach before ↔ afterDocTag (before.reverse.map .char) = true :=
  afterDocTag_iff.symm

theorem docTagInReach_concat {text : List Char} {c : Char} :
    DocTagInReach (text ++ [c]) ↔ (c ≠ separator ∧ c ≠ '\r' ∧ c ≠ '\n') ∧
      (isBlank c = true ∧ (∃ tag ∈ referenceTags, '@' :: tag <:+ text) ∨ DocTagInReach text) := by
  have htag : ∀ tag : List Char,
      (afterChars? (tag.reverse ++ ['@']) (text.reverse.map .char)).isSome = true ↔
        '@' :: tag <:+ text := by
    intro tag
    rw [afterChars?_map_char, ← List.reverse_cons, List.reverse_prefix]
  rw [docTagInReach_iff, docTagInReach_iff, List.reverse_append, List.reverse_singleton,
    List.singleton_append, List.map_cons, afterDocTag, Bool.and_eq_true, Bool.or_eq_true,
    Bool.and_eq_true, List.any_eq_true]
  simp only [htag, Cell.isBlank]
  refine and_congr_left' ?_
  simp [Cell.endsTagSearch, and_assoc]

/-- The search for a tag goes over a stretch of text as if it were not there. -/
def Passable (stretch : List Char) : Prop :=
  ∀ text, DocTagInReach (text ++ stretch) ↔ DocTagInReach text

/-- Neither a blank, before which the search looks for a tag, nor what ends the search. -/
def isQuiet (c : Char) : Bool := !isBlank c && !(Cell.char c).endsTagSearch

/-- No text that ends with the word ends with a tag. -/
def endsNoTag (word : List Char) : Bool :=
  referenceTags.all fun tag => (word.reverse.zip ('@' :: tag).reverse).any fun p => p.1 != p.2

theorem not_isSuffix_of_endsNoTag {word tag : List Char} (h : endsNoTag word = true)
    (htag : tag ∈ referenceTags) (text : List Char) : ¬ '@' :: tag <:+ text ++ word := by
  rintro ⟨lead, hlead⟩
  have hdiffer := List.all_eq_true.1 h tag htag
  refine append_ne_append_of_differ hdiffer text.reverse lead.reverse ?_
  rw [← List.reverse_append, ← List.reverse_append, hlead]

namespace Passable

variable {u v : List Char}

theorem append (hu : Passable u) (hv : Passable v) : Passable (u ++ v) := by
  intro text
  rw [← List.append_assoc, hv, hu]

theorem of_isQuiet (h : u.all isQuiet = true) : Passable u := by
  induction u using List.reverseRecOn with
  | nil =>
    intro text
    rw [List.append_nil]
  | append_singleton u c ih =>
    rw [List.all_append, Bool.and_eq_true] at h
    have hc : isBlank c = false ∧ c ≠ separator ∧ c ≠ '\r' ∧ c ≠ '\n' := by
      simpa [isQuiet, Cell.endsTagSearch, and_assoc] using h.2
    intro text
    rw [← List.append_assoc, docTagInReach_concat, ih h.1]
    simp [hc]

/-- Blanks are passed over where no tag can come before them. -/
theorem append_blanks {word gap : List Char} (hword : Passable word)
    (hend : endsNoTag word = true) (hgap : Blanks gap) : Passable (word ++ gap) := by
  induction gap using List.reverseRecOn with
  | nil => rwa [List.append_nil]
  | append_singleton gap c ih =>
    rw [Blanks, List.forall_mem_append, List.forall_mem_singleton] at hgap
    obtain ⟨hgap, hc⟩ := hgap
    have hpair : ∀ {c : Char}, isBlank c = true → c = ' ' ∨ c = '\t' := by
      simp [isBlank]
    have hends : c ≠ separator ∧ c ≠ '\r' ∧ c ≠ '\n' := by
      rcases hpair hc with rfl | rfl <;> decide
    intro text
    have hnot : ¬ ∃ tag ∈ referenceTags, '@' :: tag <:+ text ++ (word ++ gap) := by
      rintro ⟨tag, htag, hsuffix⟩
      rcases List.eq_nil_or_concat gap with rfl | ⟨gap, d, rfl⟩
      · rw [List.append_nil] at hsuffix
        exact not_isSuffix_of_endsNoTag hend htag text hsuffix
      · have hd : isBlank d = true := hgap d (by simp)
        have hblank : endsNoTag [d] = true := by rcases hpair hd with rfl | rfl <;> decide
        rw [List.concat_eq_append, ← List.append_assoc, ← List.append_assoc] at hsuffix
        exact not_isSuffix_of_endsNoTag hblank htag _ hsuffix
    rw [← List.append_assoc word, ← List.append_assoc, docTagInReach_concat, or_iff_right
      fun h => hnot h.2, ih hgap]
    exact and_iff_right hends

end Passable

theorem passable_of_isNameChar {u : List Char} (h : ∀ c ∈ u, isNameChar c = true) : Passable u := by
  refine .of_isQuiet (List.all_eq_true.2 fun c hc => ?_)
  have hends : (Cell.char c).endsTagSearch = false := by
    rw [Bool.eq_false_iff]
    intro hends
    simp only [Cell.endsTagSearch, Bool.or_eq_true, beq_iff_eq] at hends
    rcases hends with (rfl | rfl) | rfl <;> exact absurd (h _ hc) (by decide)
  simp [isQuiet, isBlank_eq_false_of_isNameChar (h c hc), hends]

theorem passable_quote {q : Char} (hq : q = '\'' ∨ q = '"') :
    Passable [q] ∧ endsNoTag [q] = true := by
  rcases hq with rfl | rfl <;> exact ⟨.of_isQuiet (by decide), by decide⟩

theorem passable_lead (k : BareCheck) : Passable k.lead := by
  have hcallee : Passable (ExistenceCheck.callee ++ k.beforeBracket) :=
    .append_blanks (.of_isQuiet (by decide)) (by decide) k.blanks_beforeBracket
  have hbracket : Passable (['('] ++ k.afterBracket) :=
    .append_blanks (.of_isQuiet (by decide)) (by decide) k.blanks_afterBracket
  exact hcallee.append hbracket

/-- What closes a check, with the quote before it. -/
theorem passable_quote_tail {q : Char} (hq : q = '\'' ∨ q = '"') (k : BareCheck) :
    Passable (q :: k.tail) := by
  obtain ⟨hquote, hend⟩ := passable_quote hq
  exact (hquote.append_blanks hend k.blanks_beforeEnd).append (.of_isQuiet (by decide))

theorem passable_text (k : BareCheck) : Passable k.text := by
  have hname := passable_of_isNameChar (isNameChar_of_isIdentifier k.isIdentifier_name)
  have htext : k.text = k.lead ++ ([k.quote] ++ k.name) ++ (k.quote :: k.tail) := by
    simp [BareCheck.text]
  rw [htext]
  exact ((passable_lead k).append ((passable_quote k.isQuote).1.append hname)).append
    (passable_quote_tail k.isQuote k)

/-- What stands before the placeholder in a qualified check, as far as its separator. -/
theorem passable_lead_name (b : Brand) (k : BareCheck) :
    Passable (k.lead ++ '\'' :: b.name.toList) := by
  have hname : Passable (['\''] ++ b.name.toList) :=
    (passable_quote (Or.inl rfl)).1.append
      (passable_of_isNameChar fun c hc => b.isNameChar_of_mem hc)
  exact (passable_lead k).append hname

/-- No tag is in reach behind a qualified check: its last separator ends the search. -/
theorem not_docTagInReach_qualified (b : Brand) (k : BareCheck) (text : List Char) :
    ¬ DocTagInReach (text ++ k.qualified b.target) := by
  have hname := passable_of_isNameChar (isNameChar_of_isIdentifier k.isIdentifier_name)
  have htail := hname.append (passable_quote_tail (Or.inl rfl) k)
  have htext : text ++ k.qualified b.target =
      text ++ k.lead ++ '\'' :: b.target ++ [separator] ++ (k.name ++ '\'' :: k.tail) := by
    simp [BareCheck.qualified]
  rw [htext, htail, docTagInReach_concat]
  exact fun h => h.1.1 rfl

/-! ### Tags among pieces -/

/-- What ends in no bracket ends in characters. -/
theorem isSuffix_render_iff {write : BareCheck → List Char} (hw : WritesCalls write)
    {word : List Char} (hword : ')' ∉ word) {pieces : List Piece} :
    word <:+ render write pieces ↔ ∃ front, pieces = front ++ word.map .char := by
  constructor
  · rintro ⟨lead, hlead⟩
    induction word using List.reverseRecOn generalizing pieces with
    | nil => exact ⟨pieces, by simp⟩
    | append_singleton word c ih =>
      rw [List.mem_append, not_or] at hword
      rcases List.eq_nil_or_concat pieces with rfl | ⟨pieces, p, rfl⟩
      · simp at hlead
      · rw [List.concat_eq_append, render_append, ← List.append_assoc] at hlead
        cases p with
        | char d =>
          obtain ⟨hlead, hd⟩ := List.append_singleton_inj.1 hlead
          obtain ⟨front, rfl⟩ := ih hword.1 hlead
          exact ⟨front, by simp [hd]⟩
        | check k =>
          obtain ⟨front, hk⟩ := hw.exists_concat k
          rw [render_cons, render_nil, List.append_nil, Piece.render, hk,
            ← List.append_assoc] at hlead
          obtain ⟨-, rfl⟩ := List.append_singleton_inj.1 hlead
          exact absurd (by simp) hword.2
  · rintro ⟨front, rfl⟩
    rw [render_append, render_map_char]
    exact List.suffix_append _ _

theorem tag_isSuffix_render_iff {write write' : BareCheck → List Char} (hw : WritesCalls write)
    (hw' : WritesCalls write') {tag : List Char} (htag : tag ∈ referenceTags)
    {pieces : List Piece} :
    '@' :: tag <:+ render write pieces ↔ '@' :: tag <:+ render write' pieces := by
  have hbracket : ')' ∉ '@' :: tag := by
    revert tag
    decide
  rw [isSuffix_render_iff hw hbracket, isSuffix_render_iff hw' hbracket]

theorem render_concat_char (write : BareCheck → List Char) (pieces : List Piece) (c : Char) :
    render write (pieces ++ [.char c]) = render write pieces ++ [c] := by
  rw [render_append]
  rfl

theorem render_concat_check (write : BareCheck → List Char) (pieces : List Piece) (k : BareCheck) :
    render write (pieces ++ [.check k]) = render write pieces ++ write k := by
  rw [render_append, render_cons, render_nil, List.append_nil]
  rfl

section Tags

variable (b : Brand)

/-- A tag in reach once the checks are qualified was in reach before. -/
theorem docTagInReach_text {pieces : List Piece}
    (h : DocTagInReach (render (BareCheck.qualified b.target) pieces)) :
    DocTagInReach (render BareCheck.text pieces) := by
  induction pieces using List.reverseRecOn with
  | nil => exact h
  | append_singleton pieces p ih =>
    cases p with
    | check k =>
      rw [render_concat_check] at h
      exact absurd h (not_docTagInReach_qualified b k _)
    | char c =>
      rw [render_concat_char, docTagInReach_concat] at h ⊢
      refine h.imp_right (Or.imp (And.imp_right ?_) ih)
      rintro ⟨tag, htag, hsuffix⟩
      exact ⟨tag, htag,
        (tag_isSuffix_render_iff (writesCalls_qualified b) writesCalls_text htag).1 hsuffix⟩

/-- A tag that was in reach still is, or it is in reach of a check in between. -/
theorem docTagInReach_qualified_or {pieces : List Piece}
    (h : DocTagInReach (render BareCheck.text pieces)) :
    DocTagInReach (render (BareCheck.qualified b.target) pieces) ∨
      ∃ front k rest, pieces = front ++ .check k :: rest ∧
        DocTagInReach (render (BareCheck.qualified b.target) front) := by
  induction pieces using List.reverseRecOn with
  | nil => exact Or.inl h
  | append_singleton pieces p ih =>
    have hlater : (∃ front k rest, pieces = front ++ .check k :: rest ∧
          DocTagInReach (render (BareCheck.qualified b.target) front)) →
        ∃ front k rest, pieces ++ [p] = front ++ .check k :: rest ∧
          DocTagInReach (render (BareCheck.qualified b.target) front) := by
      rintro ⟨front, k, rest, rfl, hfront⟩
      exact ⟨front, k, rest ++ [p], by simp, hfront⟩
    cases p with
    | check k =>
      rw [render_concat_check, passable_text] at h
      rcases ih h with h | h
      · exact Or.inr ⟨pieces, k, [], rfl, h⟩
      · exact Or.inr (hlater h)
    | char c =>
      rw [render_concat_char, docTagInReach_concat] at h ⊢
      obtain ⟨hends, ⟨hblank, tag, htag, hsuffix⟩ | h⟩ := h
      · rw [tag_isSuffix_render_iff writesCalls_text (writesCalls_qualified b) htag] at hsuffix
        exact Or.inl ⟨hends, Or.inl ⟨hblank, tag, htag, hsuffix⟩⟩
      · exact (ih h).imp (fun h => ⟨hends, Or.inr h⟩) hlater

end Tags

/-! ### Where an occurrence lies -/

/-- What does not hold a character lies on one side of it. -/
theorem exists_of_append_eq_cons {u word v front back : List Char} {c : Char} (hc : c ∉ word)
    (h : u ++ word ++ v = front ++ c :: back) :
    (∃ u', u = front ++ c :: u' ∧ back = u' ++ word ++ v) ∨
      ∃ v', front = u ++ word ++ v' ∧ v = v' ++ c :: back := by
  rcases List.append_eq_append_iff.1 h with ⟨part, rfl, hv⟩ | ⟨part, hpart, hback⟩
  · exact Or.inr ⟨part, rfl, hv⟩
  · cases part with
    | nil => exact Or.inr ⟨[], by simpa using hpart.symm, by simpa using hback.symm⟩
    | cons d part =>
      obtain ⟨rfl, rfl⟩ := List.cons.inj hback
      rcases List.append_eq_append_iff.1 hpart with ⟨more, rfl, hmore⟩ | ⟨more, rfl, hmore⟩
      · exact absurd (hmore ▸ by simp) hc
      · cases more with
        | nil => exact absurd ((List.nil_append word ▸ hmore) ▸ by simp) hc
        | cons e more =>
          obtain ⟨rfl, rfl⟩ := List.cons.inj hmore
          exact Or.inl ⟨more, rfl, rfl⟩

/-- An occurrence of the placeholder lies outside all checks, or inside one. -/
theorem WritesCalls.exists_of_occurrence {write : BareCheck → List Char} (hw : WritesCalls write)
    {pieces : List Piece} {before after : List Char}
    (h : render write pieces = before ++ placeholder ++ after) :
    (∃ front rest, pieces = front ++ placeholder.map .char ++ rest ∧
        before = render write front ∧ after = render write rest) ∨
      ∃ front k rest u v, pieces = front ++ .check k :: rest ∧ write k = u ++ placeholder ++ v ∧
        before = render write front ++ u ∧ after = v ++ render write rest := by
  induction pieces generalizing before with
  | nil => simp [placeholder] at h
  | cons p pieces ih =>
    have hlater : ∀ {before' : List Char}, before = p.render write ++ before' →
        render write pieces = before' ++ placeholder ++ after →
          (∃ front rest, p :: pieces = front ++ placeholder.map .char ++ rest ∧
              before = render write front ∧ after = render write rest) ∨
            ∃ front k rest u v, p :: pieces = front ++ .check k :: rest ∧
              write k = u ++ placeholder ++ v ∧ before = render write front ++ u ∧
                after = v ++ render write rest := by
      rintro before' rfl hpieces
      rcases ih hpieces with
        ⟨front, rest, rfl, rfl, rfl⟩ | ⟨front, k, rest, u, v, rfl, hk, rfl, rfl⟩
      · exact Or.inl ⟨p :: front, rest, by simp, by simp, rfl⟩
      · exact Or.inr ⟨p :: front, k, rest, u, v, by simp, hk, by simp, rfl⟩
    cases p with
    | char c =>
      cases before with
      | nil =>
        obtain ⟨rest, hpieces, hrest⟩ := hw.exists_of_callFree (.of_not_mem (by decide)) h
        exact Or.inl ⟨[], rest, hpieces, rfl, hrest.symm⟩
      | cons d before =>
        obtain ⟨rfl, hpieces⟩ := List.cons.inj h
        exact hlater rfl hpieces
    | check k =>
      obtain ⟨front, hk⟩ := hw.exists_concat k
      rw [render_cons, Piece.render, hk, List.append_assoc, List.singleton_append] at h
      rcases exists_of_append_eq_cons (by decide) h.symm with
        ⟨before', rfl, hpieces⟩ | ⟨tail, rfl, rfl⟩
      · exact hlater (by rw [Piece.render, hk]; simp) hpieces
      · exact Or.inr ⟨[], k, pieces, before, tail ++ [')'], rfl, by rw [hk]; simp, rfl, by simp⟩

/-! ### On both sides of a check -/

section Written

variable {write write' : BareCheck → List Char} (hw : WritesCalls write)
  (hw' : WritesCalls write')

include hw hw'

theorem alike_behind (pieces : List Piece) :
    Alike StopBehind ((render write pieces).reverse.map .char)
      ((render write' pieces).reverse.map .char) := by
  induction pieces using List.reverseRecOn with
  | nil => exact .stop stopBehind_nil
  | append_singleton pieces p ih =>
    cases p with
    | char c =>
      rw [render_concat_char, render_concat_char, List.reverse_append, List.reverse_append]
      exact .cons (.char c) ih
    | check k =>
      obtain ⟨front, hk⟩ := hw.exists_concat k
      obtain ⟨front', hk'⟩ := hw'.exists_concat k
      have hback : ∀ text : List Char, (text ++ [')']).reverse.map Cell.char =
          .char ')' :: text.reverse.map .char := by simp
      rw [render_concat_check, render_concat_check, hk, hk', ← List.append_assoc,
        ← List.append_assoc, hback, hback]
      exact .stop ⟨by simp, by simp, rfl⟩

theorem alike_ahead (pieces : List Piece) :
    Alike StopAhead ((render write pieces).map .char) ((render write' pieces).map .char) := by
  induction pieces with
  | nil => exact .stop stopAhead_nil
  | cons p pieces ih =>
    cases p with
    | char c => exact .cons (.char c) ih
    | check k =>
      obtain ⟨tail, hk, -⟩ := hw.exists_cons k
      obtain ⟨tail', hk', -⟩ := hw'.exists_cons k
      rw [render_cons, render_cons, Piece.render, Piece.render, hk, hk']
      exact .stop ⟨by simp, by simp, rfl⟩

/-- A shape fits between pieces, however the checks among them are written, unless it searches for a
documentation tag. -/
theorem fits_render {s : Shape} {front rest : List Piece}
    (hdoc : s = .documented → ∀ lead, front = lead ++ [.char separator] →
      DocTagInReach (render write lead) → DocTagInReach (render write' lead))
    (h : s.fits (render write front) (render write rest) = true) :
    s.fits (render write' front) (render write' rest) = true := by
  refine Shape.recognises_of_alike (alike_behind hw hw' front) (alike_ahead hw hw' rest) ?_ h
  intro hs b b' hb hb' hfound
  obtain ⟨lead, rfl⟩ : ∃ lead, front = lead ++ [.char separator] := by
    obtain ⟨d, back, hsplit, hd, -⟩ := List.map_eq_cons_iff.1 hb
    obtain rfl := Cell.char.inj hd
    have hsuffix : [separator] <:+ render write front := by
      rw [← List.reverse_prefix, hsplit]
      exact ⟨back, rfl⟩
    exact (isSuffix_render_iff hw (by decide)).1 hsuffix
  rw [render_concat_char, List.reverse_append, List.reverse_singleton, List.singleton_append,
    List.map_cons] at hb hb'
  obtain rfl := (List.cons.inj hb).2
  obtain rfl := (List.cons.inj hb').2
  exact docTagInReach_iff.1 (hdoc hs lead rfl (docTagInReach_iff.2 hfound))

end Written

/-! ### Inside a check -/

/-- A character of a quoted name, or a quote. -/
def isQuoted (c : Char) : Bool := isNameChar c || c == '\'' || c == '"'

theorem isQuoted_of_isNameChar {c : Char} (h : isNameChar c = true) : isQuoted c = true := by
  simp [isQuoted, h]

theorem BareCheck.isQuoted_quote (k : BareCheck) : isQuoted k.quote = true := by
  rcases k.isQuote with h | h <;> rw [h] <;> decide

/-- No shape fits right behind a quote or a name. -/
theorem fits_concat_eq_false {s : Shape} (hs : s ∈ moduleShapes) {c : Char}
    (hc : isQuoted c = true) (before after : List Char) : s.fits (before ++ [c]) after = false := by
  rw [Bool.eq_false_iff]
  intro h
  obtain ⟨d, rest, hback, hd⟩ := Shape.exists_lead_of_recognises h
  have hleads : ∀ s ∈ moduleShapes, s.leadsOf = [' ', '\t', '\\'] := by decide
  have hspell : c :: before.reverse = d :: rest := by
    rw [← hback, spellBack, ← List.map_reverse, List.reverse_reverse, expand_map_char,
      List.reverse_append]
    rfl
  obtain rfl := (List.cons.inj hspell).1
  rw [hleads s hs] at hd
  simp only [List.mem_cons, List.not_mem_nil, or_false] at hd
  rcases hd with rfl | rfl | rfl <;> exact absurd hc (by decide)

/-- Nor right before one. -/
theorem fits_cons_eq_false {s : Shape} {c : Char} (hc : isQuoted c = true)
    (before after : List Char) : s.fits before (c :: after) = false := by
  rw [Bool.eq_false_iff]
  intro h
  obtain ⟨d, rest, hrest, hd⟩ := Shape.exists_trail_of_recognises h
  rw [expand_map_char] at hrest
  obtain rfl := (List.cons.inj hrest).1
  simp only [Shape.trails, List.mem_cons, List.not_mem_nil, or_false] at hd
  rcases hd with rfl | rfl | rfl | rfl | rfl <;> exact absurd hc (by decide)

theorem exists_concat_isQuoted {q : Char} (hq : isQuoted q = true) {name : List Char}
    (hname : ∀ c ∈ name, isNameChar c = true) (front : List Char) :
    ∃ u c, front ++ q :: name = u ++ [c] ∧ isQuoted c = true := by
  rcases List.eq_nil_or_concat name with rfl | ⟨name, c, rfl⟩
  · exact ⟨front, q, rfl, hq⟩
  · exact ⟨front ++ q :: name, c, by simp, isQuoted_of_isNameChar (hname c (by simp))⟩

theorem not_eq_append_placeholder {text u v : List Char} (h : 'W' ∉ text) :
    text ≠ u ++ placeholder ++ v := by
  rintro rfl
  exact h (by simp [placeholder])

/-- In a check no shape fits. -/
theorem fits_inside_text {k : BareCheck} {u v : List Char} (h : k.text = u ++ placeholder ++ v)
    {s : Shape} (hs : s ∈ moduleShapes) (front rest : List Char) :
    s.fits (front ++ u) (v ++ rest) = false := by
  have hlead : 'W' ∉ k.lead := k.not_mem_lead (by decide) (by decide)
  have htail : 'W' ∉ k.tail := k.not_mem_tail (by decide) (by decide)
  have hquote : k.quote ∉ placeholder := fun hmem => by
    have hname := isNameChar_of_mem_placeholder hmem
    rw [k.quote_not_isNameChar] at hname
    cases hname
  have htext : k.text = k.lead ++ k.quote :: (k.name ++ k.quote :: k.tail) := by
    simp [BareCheck.text]
  rw [htext] at h
  rcases exists_of_append_eq_cons hquote h.symm with ⟨u', rfl, hinner⟩ | ⟨v', hlead', -⟩
  · rcases exists_of_append_eq_cons hquote hinner.symm with ⟨u'', -, htail'⟩ | ⟨v', hname, -⟩
    · exact absurd htail' (not_eq_append_placeholder htail)
    · have hu' : ∀ c ∈ u', isNameChar c = true := fun c hc =>
        isNameChar_of_isIdentifier k.isIdentifier_name c (by rw [hname]; simp [hc])
      obtain ⟨lead, c, hlast, hc⟩ := exists_concat_isQuoted k.isQuoted_quote hu' k.lead
      rw [hlast, ← List.append_assoc]
      exact fits_concat_eq_false hs hc _ _
  · exact absurd hlead' (not_eq_append_placeholder hlead)

/-- In a qualified check the placeholder stands in the target, or right behind a quote or a name, or
right before one. -/
theorem cases_of_qualified_eq (b : Brand) {k : BareCheck} {u v : List Char}
    (h : k.qualified b.target = u ++ placeholder ++ v) :
    (u = k.lead ++ '\'' :: b.name.toList ++ [separator] ∧
        v = separator :: k.name ++ '\'' :: k.tail) ∨
      (∃ u' c, u = u' ++ [c] ∧ isQuoted c = true) ∨ ∃ c v', v = c :: v' ∧ isQuoted c = true := by
  have hlead : 'W' ∉ k.lead := k.not_mem_lead (by decide) (by decide)
  have htail : 'W' ∉ k.tail := k.not_mem_tail (by decide) (by decide)
  have hquote : '\'' ∉ placeholder := by decide
  have hsep : separator ∉ placeholder := by decide
  have htext : k.qualified b.target = k.lead ++ '\'' :: (b.name.toList ++ separator ::
      (placeholder ++ separator :: (k.name ++ '\'' :: k.tail))) := by
    simp [BareCheck.qualified, Brand.target]
  rw [htext] at h
  -- cut at the quote, then behind the brand, behind the placeholder and at the second quote
  rcases exists_of_append_eq_cons hquote h.symm with ⟨u, rfl, hquoted⟩ | ⟨v', hlead', -⟩
  · rcases exists_of_append_eq_cons hsep hquoted.symm with ⟨u, rfl, hsecond⟩ | ⟨v', hname, -⟩
    · rcases exists_of_append_eq_cons hsep hsecond.symm with ⟨u, rfl, hthird⟩ | ⟨v', hword, rfl⟩
      · rcases exists_of_append_eq_cons hquote hthird.symm with ⟨u, -, htail'⟩ | ⟨v', hname, rfl⟩
        · exact absurd htail' (not_eq_append_placeholder htail)
        · refine Or.inr (Or.inr ?_)
          cases v' with
          | nil => exact ⟨'\'', k.tail, rfl, by decide⟩
          | cons c v' =>
            refine ⟨c, v' ++ '\'' :: k.tail, rfl, isQuoted_of_isNameChar ?_⟩
            exact isNameChar_of_isIdentifier k.isIdentifier_name c (by rw [hname]; simp)
      · have hlength := congrArg List.length hword
        simp only [List.length_append] at hlength
        obtain rfl : u = [] := List.length_eq_zero_iff.1 (by omega)
        obtain rfl : v' = [] := List.length_eq_zero_iff.1 (by omega)
        exact Or.inl ⟨by simp, rfl⟩
    · have hu : ∀ c ∈ u, isNameChar c = true := fun c hc =>
        b.isNameChar_of_mem (by rw [hname]; simp [hc])
      exact Or.inr (Or.inl (exists_concat_isQuoted (by decide) hu k.lead))
  · exact absurd hlead' (not_eq_append_placeholder hlead)

/-- In the target a shape fits only with a documentation tag in reach of the check. -/
theorem docTagInReach_of_fits (b : Brand) {k : BareCheck} {s : Shape} {before after : List Char}
    (h : s.fits (before ++ (k.lead ++ '\'' :: b.name.toList ++ [separator])) after = true) :
    DocTagInReach before := by
  by_contra hnot
  rw [← passable_lead_name b k, docTagInReach_iff, Bool.not_eq_true] at hnot
  obtain ⟨name, c, hname⟩ := (List.eq_nil_or_concat b.name.toList).resolve_left fun h => by
    have hidentifier := b.identifier
    rw [h] at hidentifier
    cases hidentifier
  have hc : isNameChar c = true := b.isNameChar_of_mem (by rw [hname]; simp)
  have hback : (before ++ (k.lead ++ '\'' :: b.name.toList)).reverse.map Cell.char =
      .char c :: (before ++ (k.lead ++ '\'' :: name)).reverse.map .char := by
    rw [hname]
    simp
  rw [hback] at hnot
  have hquiet := s.recognises_behind_plain (c := .char c) hc hnot (after.map .char)
  rw [← hback] at hquiet
  rw [Shape.fits, ← List.append_assoc, List.reverse_append, List.reverse_singleton,
    List.singleton_append, List.map_cons, hquiet] at h
  cases h

/-- And then the shape of documented references does. -/
theorem fits_of_docTagInReach (b : Brand) (k : BareCheck) {before : List Char}
    (h : DocTagInReach before) (after : List Char) :
    Shape.documented.fits (before ++ (k.lead ++ '\'' :: b.name.toList ++ [separator]))
      (separator :: after) = true := by
  rw [← passable_lead_name b k, docTagInReach_iff] at h
  refine Shape.recognisesDocumented_iff.2 ⟨_, after.map .char, ?_, rfl, h⟩
  rw [← List.append_assoc, List.reverse_append]
  rfl

section Unreferenced

variable (b : Brand) {pieces : List Piece}

/-- In a qualified text without references no check has a tag in reach, nor had one before. -/
theorem Unreferenced.not_docTagInReach
    (h : Unreferenced (render (BareCheck.qualified b.target) pieces)) {front rest : List Piece}
    {k : BareCheck} (hpieces : pieces = front ++ .check k :: rest) :
    ¬ DocTagInReach (render BareCheck.text front) := by
  have hcheck : ∀ front k rest, pieces = front ++ .check k :: rest →
      ¬ DocTagInReach (render (BareCheck.qualified b.target) front) := by
    rintro front k rest rfl htag
    have hfits := fits_of_docTagInReach b k htag
      (k.name ++ '\'' :: k.tail ++ render (BareCheck.qualified b.target) rest)
    rw [unreferenced_iff_fits.1 h _ _ ?_ .documented (by decide)] at hfits
    · cases hfits
    · simp [Piece.render, BareCheck.qualified, Brand.target]
  intro htag
  rcases docTagInReach_qualified_or b htag with htag' | ⟨front', k', more, rfl, htag'⟩
  · exact hcheck front k rest hpieces htag'
  · exact hcheck front' k' (more ++ .check k :: rest) (by rw [hpieces]; simp) htag'

theorem Unreferenced.text (h : Unreferenced (render (BareCheck.qualified b.target) pieces)) :
    Unreferenced (render BareCheck.text pieces) := by
  rw [unreferenced_iff_fits]
  intro before after heq s hs
  rcases writesCalls_text.exists_of_occurrence heq with
    ⟨front, rest, hpieces, rfl, rfl⟩ | ⟨front, k, rest, u, v, -, hk, rfl, rfl⟩
  · rw [Bool.eq_false_iff]
    intro hfits
    have hfits' := fits_render writesCalls_text (writesCalls_qualified b) ?_ hfits
    · rw [unreferenced_iff_fits.1 h _ _ (by rw [hpieces]; simp) s hs] at hfits'
      cases hfits'
    · -- a check between the tag and the occurrence would have the tag in reach
      rintro - lead rfl htag
      refine (docTagInReach_qualified_or b htag).resolve_right ?_
      rintro ⟨front, k, more, rfl, htag'⟩
      have hsplit : pieces = front ++ .check k ::
          (more ++ [.char separator] ++ placeholder.map .char ++ rest) := by
        rw [hpieces]
        simp
      exact h.not_docTagInReach b hsplit (docTagInReach_text b htag')
  · exact fits_inside_text hk hs _ _

theorem Unreferenced.qualified (h : Unreferenced (render BareCheck.text pieces))
    (hnot : ∀ front k rest, pieces = front ++ .check k :: rest →
      ¬ DocTagInReach (render BareCheck.text front)) :
    Unreferenced (render (BareCheck.qualified b.target) pieces) := by
  rw [unreferenced_iff_fits]
  intro before after heq s hs
  rcases (writesCalls_qualified b).exists_of_occurrence heq with
    ⟨front, rest, hpieces, rfl, rfl⟩ | ⟨front, k, rest, u, v, hpieces, hk, rfl, rfl⟩
  · rw [Bool.eq_false_iff]
    intro hfits
    have hfits' := fits_render (writesCalls_qualified b) writesCalls_text
      (fun _ lead _ htag => docTagInReach_text b htag) hfits
    rw [unreferenced_iff_fits.1 h _ _ (by rw [hpieces]; simp) s hs] at hfits'
    cases hfits'
  · rcases cases_of_qualified_eq b hk with ⟨rfl, -⟩ | ⟨u, c, rfl, hc⟩ | ⟨c, v, rfl, hc⟩
    · rw [Bool.eq_false_iff]
      intro hfits
      exact hnot front k rest hpieces (docTagInReach_text b (docTagInReach_of_fits b hfits))
    · rw [← List.append_assoc]
      exact fits_concat_eq_false hs hc _ _
    · exact fits_cons_eq_false hc _ _

end Unreferenced

/-- Once its checks are qualified a text holds no reference exactly where it held none before and no
documentation tag was in reach of a check. -/
theorem unreferenced_qualified_iff (b : Brand) (pieces : List Piece) :
    Unreferenced (render (BareCheck.qualified b.target) pieces) ↔
      Unreferenced (render BareCheck.text pieces) ∧
        ∀ front k rest, pieces = front ++ .check k :: rest →
          ¬ DocTagInReach (render BareCheck.text front) :=
  ⟨fun h => ⟨h.text b, fun _ _ _ hpieces => h.not_docTagInReach b hpieces⟩,
    fun h => h.1.qualified b h.2⟩

end Branding
