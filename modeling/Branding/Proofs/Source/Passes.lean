import Branding.Proofs.Source.Shadow
import Branding.Proofs.Source.Sites
import Mathlib.Data.List.Forall2

/-!
# What the passes leave behind

A pass turns some occurrences into marks. Two things can be said of what it leaves: every mark has
in front of it what its shape wants there, and no unclaimed occurrence is left that the shape
recognises, neither now nor in any shadow of the cells. Both survive the later passes, because these
again only turn occurrences into marks, and a shadow cannot tell the one from the other.

A pass could miss a reference only where the name after it has become a mark before. The order of
the passes excludes that: the shapes that look at the name come after those whose marks stand behind
a blank, and before none whose marks stand behind separators alone.

## Main definitions

* `Claimed` — the same cells with more occurrences claimed
* `Shape.leads` — what a shape wants in front of an occurrence, as far as it is needed here
* `Led` — every mark has in front of it what its shape wants there
* `Quiet` — a shape recognises no unclaimed occurrence, in no shadow

## Main results

* `quiet_stageAll` — after all passes every shape is quiet
-/

namespace Branding

/-! ### More occurrences claimed -/

/-- The same cell, or an occurrence that has been claimed. -/
inductive Cell.Claimed : Cell → Cell → Prop
  | same (c : Cell) : Claimed c c
  | mark (m : Mark) : Claimed .name (.mark m)

/-- The same cells with more occurrences claimed. -/
def Claimed : List Cell → List Cell → Prop := List.Forall₂ Cell.Claimed

theorem Cell.Claimed.expand_eq {c d : Cell} (h : c.Claimed d) :
    d.expand placeholder = c.expand placeholder := by
  cases h with
  | same c => rfl
  | mark m => cases m <;> rfl

theorem Cell.Claimed.ne_char {c d : Cell} (h : c.Claimed d) (hd : ∀ a, d ≠ .char a) :
    ∀ a, c ≠ .char a := by
  cases h with
  | same c => exact hd
  | mark m => nofun

theorem Cell.Claimed.eq_char {c : Cell} {a : Char} (h : c.Claimed (.char a)) : c = .char a := by
  cases h
  rfl

theorem Cell.Claimed.eq_name {c : Cell} (h : c.Claimed .name) : c = .name := by
  cases h
  rfl

theorem Cell.Claimed.trans {c d e : Cell} (h : c.Claimed d) (h' : d.Claimed e) : c.Claimed e := by
  cases h with
  | same _ => exact h'
  | mark m =>
    cases h'
    exact .mark m

namespace Claimed

variable {cells claimed shadow : List Cell}

theorem refl (cells : List Cell) : Claimed cells cells :=
  List.forall₂_same.2 fun c _ => .same c

theorem trans {later : List Cell} (h : Claimed cells claimed) (h' : Claimed claimed later) :
    Claimed cells later := by
  induction h generalizing later with
  | nil => exact h'
  | cons hc _ ih =>
    cases h' with
    | cons hd h' => exact .cons (hc.trans hd) (ih h')

theorem expand_eq (h : Claimed cells claimed) :
    expand placeholder claimed = expand placeholder cells := by
  induction h with
  | nil => rfl
  | cons hc _ ih => rw [expand_cons, expand_cons, hc.expand_eq, ih]

theorem reverse (h : Claimed cells claimed) : Claimed cells.reverse claimed.reverse :=
  List.rel_reverse h

/-- A shadow does not tell whether an occurrence has been claimed. -/
theorem behind (h : Claimed cells claimed) (hb : Behind claimed shadow) : Behind cells shadow := by
  induction h generalizing shadow with
  | nil => exact hb
  | @cons c d cells claimed hc h ih =>
    cases hb with
    | char a hb =>
      rw [hc.eq_char]
      exact .char a (ih hb)
    | bare hd hb => exact .bare (hc.ne_char hd) (ih hb)
    | led hd => exact .led (hc.ne_char hd)

theorem ahead (h : Claimed cells claimed) (ha : Ahead claimed shadow) : Ahead cells shadow := by
  induction h generalizing shadow with
  | nil => exact ha
  | @cons c d cells claimed hc h ih =>
    cases ha with
    | char a ha =>
      rw [hc.eq_char]
      exact .char a (ih ha)
    | other hd hs => exact .other (hc.ne_char hd) hs

theorem split {front rest : List Cell} {d : Cell} (h : Claimed cells (front ++ d :: rest)) :
    ∃ front' c rest', cells = front' ++ c :: rest' ∧ Claimed front' front ∧ c.Claimed d ∧
      Claimed rest' rest := by
  induction front generalizing cells with
  | nil =>
    cases h with
    | cons hc h => exact ⟨[], _, _, rfl, .nil, hc, h⟩
  | cons e front ih =>
    cases h with
    | cons hc h =>
      obtain ⟨front', c, rest', rfl, hfront, hd, hrest⟩ := ih h
      exact ⟨_ :: front', c, rest', rfl, .cons hc hfront, hd, hrest⟩

end Claimed

namespace Shape

/-- A pass claims occurrences and does nothing else. -/
theorem claimed_stageFrom (s : Shape) (before cells : List Cell) :
    Claimed cells (s.stageFrom before cells) := by
  induction cells generalizing before with
  | nil => exact .nil
  | cons c cells ih =>
    refine .cons ?_ (ih _)
    split
    next h =>
      rw [h.1]
      exact .mark _
    next => exact .same c

/-- One cell of a pass: what it was, and what the shape says to its place. -/
theorem stageFrom_split (s : Shape) {before cells front rest : List Cell} {d : Cell}
    (h : s.stageFrom before cells = front ++ d :: rest) :
    ∃ front' c rest', cells = front' ++ c :: rest' ∧ Claimed front' front ∧ Claimed rest' rest ∧
      d = if c = .name ∧ s.recognises (front'.reverse ++ before) rest' then .mark s.mark
        else c := by
  induction front generalizing before cells with
  | nil =>
    cases cells with
    | nil => cases h
    | cons c cells =>
      obtain ⟨rfl, rfl⟩ := List.cons.inj h
      exact ⟨[], c, cells, rfl, .nil, s.claimed_stageFrom _ cells, rfl⟩
  | cons e front ih =>
    cases cells with
    | nil => cases h
    | cons c cells =>
      obtain ⟨he, hrest⟩ := List.cons.inj h
      obtain ⟨front', c', rest', rfl, hfront, htail, hd⟩ := ih hrest
      refine ⟨c :: front', c', rest', rfl, .cons ?_ hfront, htail, ?_⟩
      · rw [← he]
        split
        next hc =>
          rw [hc.1]
          exact .mark _
        next => exact .same c
      · simpa using hd

/-- Where nothing is recognised a pass changes nothing. -/
theorem stageFrom_append_of_unrecognised {s : Shape} {before stretch rest : List Cell}
    (h : ∀ front tail, stretch = front ++ .name :: tail →
      s.recognises (front.reverse ++ before) (tail ++ rest) = false) :
    s.stageFrom before (stretch ++ rest) =
      stretch ++ s.stageFrom (stretch.reverse ++ before) rest := by
  induction stretch generalizing before with
  | nil => rfl
  | cons c stretch ih =>
    have hnext : ∀ front tail, stretch = front ++ .name :: tail →
        s.recognises (front.reverse ++ c :: before) (tail ++ rest) = false := by
      rintro front tail rfl
      simpa using h (c :: front) tail rfl
    have hhere : ¬(c = .name ∧ s.recognises before (stretch ++ rest) = true) := by
      rintro ⟨rfl, hrec⟩
      have hnot : s.recognises before (stretch ++ rest) = false := h [] stretch rfl
      rw [hnot] at hrec
      cases hrec
    rw [List.cons_append, stageFrom, if_neg hhere, ih hnext, List.cons_append]
    simp

/-- A pass claims occurrences, and goes on behind them. -/
theorem exists_stageFrom_append (s : Shape) (before front rest : List Cell) :
    ∃ front', Claimed front front' ∧
      s.stageFrom before (front ++ rest) =
        front' ++ s.stageFrom (front.reverse ++ before) rest := by
  induction front generalizing before with
  | nil => exact ⟨[], .nil, rfl⟩
  | cons c front ih =>
    obtain ⟨front', hclaimed, hrest⟩ := ih (c :: before)
    rw [List.cons_append, stageFrom, hrest]
    refine ⟨_ :: front', .cons ?_ hclaimed, by simp; rfl⟩
    split
    next h =>
      rw [h.1]
      exact .mark _
    next => exact .same c

/-- Characters are no occurrences. -/
theorem stageFrom_map_char_append (s : Shape) (before : List Cell) (text : List Char)
    (rest : List Cell) : s.stageFrom before (text.map .char ++ rest) =
      text.map .char ++ s.stageFrom ((text.map .char).reverse ++ before) rest := by
  refine stageFrom_append_of_unrecognised fun front tail hsplit => ?_
  have hmem : Cell.name ∈ text.map Cell.char := hsplit ▸ by simp
  simp at hmem

/-! ### What stands in front of a mark -/

/-- What a shape wants in front of an occurrence, nearest character first: blanks with no
documentation tag in reach, or separators, or a quote. -/
def leads : Shape → List Char → Prop
  | .declaration, back | .importation, back =>
    (∃ c rest, back = c :: rest ∧ isBlank c = true) ∧ afterDocTag (back.map .char) = false
  | .qualified, back | .documented, back =>
    ∃ rest, back = separator :: rest ∧ rest.head? ≠ some separator
  | .escaped, back => ∃ rest, back = separator :: separator :: rest
  | .loaderLiteral, back => ∃ rest, back = '\'' :: rest

theorem newline_not_mem_referenceTag {tag : List Char} (h : tag ∈ referenceTags) : '\n' ∉ tag := by
  revert tag
  decide

/-- A line of words without an at sign. -/
theorem exists_line_of_lineLed {words : List String} (hwords : ∀ w ∈ words, '@' ∉ w.toList)
    {text : List Char} (h : LineLed words text) :
    ∃ lead line, EndsAtLineStart lead ∧ '@' ∉ line ∧ text = lead ++ line := by
  have hblanks : ∀ {gap : List Char}, Blanks gap → '@' ∉ gap :=
    fun hgap hmem => absurd (hgap _ hmem) (by decide)
  induction words generalizing text with
  | nil =>
    obtain ⟨lead, indent, hlead, hindent, rfl⟩ := h
    exact ⟨lead, indent, hlead, hblanks hindent, rfl⟩
  | cons word words ih =>
    obtain ⟨text, gap, htext, -, hgap, rfl⟩ := h
    obtain ⟨lead, line, hlead, hline, rfl⟩ := ih (fun w hw => hwords w (by simp [hw])) htext
    refine ⟨lead, line ++ word.toList ++ gap, hlead, ?_, by simp⟩
    simp [hline, hwords word, hblanks hgap]

/-- On a line without an at sign no documentation tag is in reach. -/
theorem afterDocTag_of_line {lead line : List Char} (hlead : EndsAtLineStart lead)
    (hline : '@' ∉ line) : afterDocTag ((lead ++ line).reverse.map .char) = false := by
  rw [Bool.eq_false_iff]
  intro hdoc
  obtain ⟨before, tag, gap, run, htag, -, hgap, hrun, htext⟩ := afterDocTag_iff.1 hdoc
  have hnewline : '\n' ∉ '@' :: (tag ++ gap ++ run) := by
    have hgap' : '\n' ∉ gap := fun hmem => absurd (hgap _ hmem) (by decide)
    have hrun' : '\n' ∉ run := fun hmem => (hrun _ hmem).2.2 rfl
    simp [newline_not_mem_referenceTag htag, hgap', hrun']
  have hsplit : before ++ '@' :: (tag ++ gap ++ run) = lead ++ line := by
    rw [htext]
    simp
  rcases List.append_eq_append_iff.1 hsplit with ⟨part, rfl, hpart⟩ | ⟨part, rfl, hpart⟩
  · rcases List.eq_nil_or_concat part with rfl | ⟨part, c, rfl⟩
    · rw [List.nil_append] at hpart
      exact hline (hpart ▸ List.mem_cons_self)
    · rcases hlead with hlead | ⟨l, hl⟩
      · simp at hlead
      · rw [List.concat_eq_append, ← List.append_assoc] at hl
        obtain ⟨-, rfl⟩ := List.append_singleton_inj.1 hl
        exact hnewline (hpart ▸ by simp)
  · exact hline (hpart ▸ by simp)

/-- A line led by a keyword holds no documentation tag. -/
theorem afterDocTag_of_lineLed {words : List String} (hwords : ∀ w ∈ words, '@' ∉ w.toList)
    {text : List Char} (h : LineLed words text) :
    afterDocTag (text.reverse.map .char) = false := by
  obtain ⟨lead, line, hlead, hline, rfl⟩ := exists_line_of_lineLed hwords h
  exact afterDocTag_of_line hlead hline

theorem leads_of_lineLed {s : Shape} (hs : s = .declaration ∨ s = .importation) {word : String}
    {words : List String} (hwords : ∀ w ∈ word :: words, '@' ∉ w.toList) {text : List Char}
    (h : LineLed (word :: words) text) : s.leads text.reverse := by
  have hblank : ∃ c rest, text.reverse = c :: rest ∧ isBlank c = true := by
    obtain ⟨lead, gap, -, hne, hgap, rfl⟩ := h
    obtain ⟨gap, c, rfl⟩ := (List.eq_nil_or_concat gap).resolve_left hne
    refine ⟨c, (lead ++ word.toList ++ gap).reverse, by simp, hgap c (by simp)⟩
  rcases hs with rfl | rfl <;> exact ⟨hblank, afterDocTag_of_lineLed hwords h⟩

/-- Where no separator is nearest, the text ends with none. -/
theorem head?_spellBack_ne_separator {before : List Cell}
    (h : ∀ rest, before ≠ .char separator :: rest) :
    (spellBack before).head? ≠ some separator := by
  cases before with
  | nil => simp
  | cons c before =>
    rw [spellBack_cons]
    rcases c.char_or_opaque with ⟨a, rfl⟩ | ⟨hexpand, -⟩
    · intro ha
      obtain rfl : a = separator := by simpa [Cell.expand] using ha
      exact h before rfl
    · rw [hexpand, List.head?_append_of_ne_nil _ (by decide)]
      decide

/-- What a shape recognises has in front of it what the shape wants there. -/
theorem leads_of_recognises {s : Shape} {before after : List Cell}
    (h : s.recognises before after = true) : s.leads (spellBack before) := by
  cases s with
  | declaration =>
    rw [declaration_recognises_eq_fits, fits_declaration_iff] at h
    exact leads_of_lineLed (Or.inl rfl) (by decide) h.1
  | importation =>
    rw [importation_recognises_eq_fits, fits_importation_iff] at h
    rcases h.1 with h | h | h <;> exact leads_of_lineLed (Or.inr rfl) (by decide) h
  | qualified =>
    obtain ⟨b, a, rfl, rfl, -, hfree⟩ := recognisesQualified_iff.1 h
    refine ⟨spellBack b, by simp [List.replicate, Cell.expand], head?_spellBack_ne_separator ?_⟩
    rintro rest rfl
    cases hfree
  | documented =>
    obtain ⟨b, a, rfl, rfl, hdoc⟩ := recognisesDocumented_iff.1 h
    refine ⟨spellBack b, by simp [Cell.expand], head?_spellBack_ne_separator ?_⟩
    rintro rest rfl
    cases hdoc
  | escaped =>
    obtain ⟨b, a, rfl, rfl, -⟩ := recognisesEscaped_iff.1 h
    exact ⟨spellBack b, by simp [List.replicate, Cell.expand]⟩
  | loaderLiteral =>
    obtain ⟨b, a, rfl, -⟩ := recognisesLoaderLiteral_iff.1 h
    exact ⟨spellBack b, by simp [Cell.expand]⟩

/-- Where one shape leads, no name stands right beyond the separators that the other wants. -/
def SparesNames (earlier later : Shape) : Prop :=
  ∀ rest, ¬ earlier.leads
    (List.replicate later.separators separator ++ placeholder.reverse ++ rest)

/-- The shapes that are still to come want names that the marks of those before them spare. -/
def InOrder : (done todo : List Shape) → Prop
  | _, [] => True
  | done, s :: todo => (∀ s' ∈ done, s'.SparesNames s) ∧ InOrder (done ++ [s]) todo

theorem inOrder_moduleShapes : InOrder [] moduleShapes := by
  simp [InOrder, moduleShapes, SparesNames, leads, separators, placeholder, separator, isBlank]

theorem inOrder_loaderShapes : InOrder [] loaderShapes := by
  simp [InOrder, loaderShapes, SparesNames, leads, separators, placeholder, separator, isBlank]

end Shape

/-! ### After a pass, and after all of them -/

/-- Every mark has in front of it what one of the shapes that make it wants there. -/
def Led (shapes : List Shape) (cells : List Cell) : Prop :=
  ∀ front m rest, cells = front ++ .mark m :: rest →
    ∃ s ∈ shapes, s.mark = m ∧ s.leads (expand placeholder front).reverse

/-- A shape recognises no unclaimed occurrence, in no shadow of the cells. -/
def Quiet (s : Shape) (cells : List Cell) : Prop :=
  ∀ front rest, cells = front ++ .name :: rest → ∀ b a, Behind front.reverse b → Ahead rest a →
    s.recognises b a = false

theorem led_nameCells (text : List Char) : Led [] (nameCells text) := by
  intro front m rest h
  exact absurd (h ▸ by simp) (mark_not_mem_nameCells m text)

theorem Led.stage {done : List Shape} {cells : List Cell} (h : Led done cells) (s : Shape) :
    Led (done ++ [s]) (s.stage cells) := by
  intro front m rest heq
  obtain ⟨front', c, rest', rfl, hfront, -, hd⟩ := s.stageFrom_split heq
  rw [hfront.expand_eq]
  split at hd
  next hc =>
    obtain rfl := Cell.mark.inj hd
    refine ⟨s, by simp, rfl, ?_⟩
    have hlead := Shape.leads_of_recognises hc.2
    rwa [List.append_nil, spellBack, List.reverse_reverse] at hlead
  next =>
    subst hd
    obtain ⟨s', hs', hmark, hlead⟩ := h front' m rest' rfl
    exact ⟨s', by simp [hs'], hmark, hlead⟩

/-- What is claimed later is nothing that a shape recognises. -/
theorem Quiet.of_claimed {s : Shape} {cells claimed : List Cell} (h : Quiet s cells)
    (hclaimed : Claimed cells claimed) : Quiet s claimed := by
  rintro front rest rfl b a hb ha
  obtain ⟨front', c, rest', rfl, hfront, hc, hrest⟩ := hclaimed.split
  rw [hc.eq_name] at h
  exact h front' rest' rfl b a (hfront.reverse.behind hb) (hrest.ahead ha)

theorem quiet_stage {done : List Shape} {cells : List Cell} (hled : Led done cells) {s : Shape}
    (hspares : ∀ s' ∈ done, s'.SparesNames s) : Quiet s (s.stage cells) := by
  intro front rest heq b a hb ha
  obtain ⟨front', c, rest', rfl, hfront, hrest, hd⟩ := s.stageFrom_split heq
  split at hd
  next => cases hd
  next hc =>
    subst hd
    have hmark : ∀ m r,
        rest' ≠ List.replicate s.separators (.char separator) ++ .mark m :: r := by
      rintro m r rfl
      obtain ⟨s', hs', -, hlead⟩ := hled
        (front' ++ .name :: List.replicate s.separators (.char separator)) m r (by simp)
      refine hspares s' hs' (expand placeholder front').reverse ?_
      simpa [expand_replicate_char, Cell.expand] using hlead
    rw [Bool.eq_false_iff]
    intro h
    refine hc ⟨rfl, ?_⟩
    rw [List.append_nil]
    exact Shape.recognises_of_shadow (hfront.reverse.behind hb) (hrest.ahead ha) hmark h

/-- After all passes every mark is led, and every shape is quiet. -/
theorem quiet_stageAll {done todo : List Shape} (hord : Shape.InOrder done todo)
    {cells : List Cell} (hled : Led done cells) (hquiet : ∀ s ∈ done, Quiet s cells) :
    Led (done ++ todo) (stageAll todo cells) ∧
      ∀ s ∈ done ++ todo, Quiet s (stageAll todo cells) := by
  induction todo generalizing done cells with
  | nil =>
    rw [List.append_nil]
    exact ⟨hled, hquiet⟩
  | cons s todo ih =>
    obtain ⟨hspares, hord⟩ := hord
    have hquiet' : ∀ s' ∈ done ++ [s], Quiet s' (s.stage cells) := by
      intro s' hs'
      rcases List.mem_append.1 hs' with hs' | hs'
      · exact (hquiet s' hs').of_claimed (s.claimed_stageFrom [] cells)
      · rw [List.mem_singleton.1 hs']
        exact quiet_stage hled hspares
    have h := ih hord (hled.stage s) hquiet'
    rwa [List.append_assoc, List.singleton_append] at h

theorem claimed_stageAll (shapes : List Shape) (cells : List Cell) :
    Claimed cells (stageAll shapes cells) := by
  induction shapes generalizing cells with
  | nil => exact Claimed.refl cells
  | cons s shapes ih => exact (s.claimed_stageFrom [] cells).trans (ih _)

end Branding
