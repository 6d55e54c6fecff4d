import Branding.Proofs.Source.Checks
import Branding.Proofs.Source.Lines

/-!
# Declarations that branding keeps

Neither branding nor qualifying takes a declaration away. What comes before the name on a line that
declares one holds no mark and no occurrence of the placeholder, so it passes through branding as it
is, and what the name begins with is still something a name can begin with. And a line declares what
it declares up to its first bracket, while no check is written without one: so however its checks
are written, a text declares the same.

## Main definitions

* `DeclarationLead` — what stands on a line before the namespace that it declares

## Main results

* `declaredNamespace?_render` — a text declares the same, however its checks are written
* `isPrefix_brandModule` — branding leaves a word at the head of a text
* `isSome_declaredNamespace?_brandModule` — branding takes no declaration away
-/

namespace Branding

/-! ### Reading up to a bracket -/

theorem dropWhile_append_stop {p : Char → Bool} {c : Char} (hc : p c = false)
    (u rest : List Char) : (u ++ c :: rest).dropWhile p = u.dropWhile p ++ c :: rest := by
  induction u with
  | nil =>
    rw [List.nil_append, List.dropWhile_cons, if_neg (by simp [hc]), List.dropWhile_nil,
      List.nil_append]
  | cons a u ih =>
    rw [List.cons_append, List.dropWhile_cons, List.dropWhile_cons, ih]
    split <;> rfl

theorem takeWhile_append_stop {p : Char → Bool} {c : Char} (hc : p c = false)
    (u rest : List Char) : (u ++ c :: rest).takeWhile p = u.takeWhile p := by
  induction u with
  | nil => rw [List.nil_append, List.takeWhile_cons, if_neg (by simp [hc]), List.takeWhile_nil]
  | cons a u ih => rw [List.cons_append, List.takeWhile_cons, List.takeWhile_cons, ih]

theorem afterWord?_append_stop {word : List Char} {c : Char} (hc : c ∉ word)
    (u rest : List Char) :
    afterWord? word (u ++ c :: rest) = (afterWord? word u).map (· ++ c :: rest) := by
  induction word generalizing u with
  | nil => rfl
  | cons w word ih =>
    rw [List.mem_cons, not_or] at hc
    cases u with
    | nil => exact if_neg (Ne.symm hc.1)
    | cons a u =>
      rw [List.cons_append, afterWord?, afterWord?]
      split
      · exact ih hc.2 u
      · rfl

theorem afterName?_append_bracket (u rest : List Char) :
    afterName? (u ++ '(' :: rest) =
      (afterName? u).map fun found => (found.1, found.2 ++ '(' :: rest) := by
  have hbracket : isNameChar '(' = false := by decide
  cases u with
  | nil => rfl
  | cons a u =>
    rw [List.cons_append, afterName?, afterName?]
    split
    · rw [takeWhile_append_stop hbracket, dropWhile_append_stop hbracket, Option.map_some]
    · rfl

theorem namespacePath?_of_afterName?_eq_none {text : List Char} (h : afterName? text = none) :
    namespacePath? text = none := by
  rw [namespacePath?]
  split
  next => rfl
  next hsome => rw [h] at hsome; cases hsome
  next hsome => rw [h] at hsome; cases hsome

/-- The longest namespace, from the name it begins with. -/
theorem namespacePath?_of_afterName? {text name rest : List Char}
    (h : afterName? text = some (name, rest)) :
    namespacePath? text = some (name ++
      (((afterWord? [separator] rest).bind namespacePath?).map (separator :: ·)).getD []) := by
  rw [namespacePath?]
  split
  next hnone => rw [hnone] at h; cases h
  next hsome =>
    rw [hsome] at h
    cases h
    simp [afterWord?]
  next c more hsome =>
    rw [hsome] at h
    cases h
    by_cases hsep : c = '\\'
    · subst hsep
      rw [if_pos rfl, show afterWord? [separator] ('\\' :: more) = some more from rfl,
        Option.bind_some]
      cases namespacePath? more <;> simp [separator]
    · rw [if_neg hsep, show afterWord? [separator] (c :: more) = none from if_neg (Ne.symm hsep)]
      simp

theorem namespacePath?_append_bracket (u rest : List Char) :
    namespacePath? (u ++ '(' :: rest) = namespacePath? u := by
  induction hlength : u.length using Nat.strong_induction_on generalizing u with
  | _ n ih =>
    subst hlength
    have hread := afterName?_append_bracket u rest
    cases hname : afterName? u with
    | none =>
      rw [hname] at hread
      rw [namespacePath?_of_afterName?_eq_none hname, namespacePath?_of_afterName?_eq_none hread]
    | some found =>
      obtain ⟨name, more⟩ := found
      rw [hname] at hread
      have hlonger : more.length ≤ u.length := by
        rw [← append_of_afterName? hname]
        simp
      have hsep : '(' ∉ [separator] := by decide
      rw [namespacePath?_of_afterName? hname, namespacePath?_of_afterName? hread,
        afterWord?_append_stop hsep]
      cases hmore : afterWord? [separator] more with
      | none => rfl
      | some path =>
        rw [afterWord?_eq_some_iff] at hmore
        have hshorter : path.length < u.length := by
          rw [hmore, List.length_append, List.length_singleton] at hlonger
          omega
        rw [Option.map_some, Option.bind_some, Option.bind_some, ih _ hshorter path rfl]

/-- A line declares what it declares up to a bracket. -/
theorem declaredOnLine?_append_bracket (u rest : List Char) :
    declaredOnLine? (u ++ '(' :: rest) = declaredOnLine? u := by
  have hblank : isBlank '(' = false := by decide
  have hkeyword : '(' ∉ "namespace".toList := by decide
  have hsep : '(' ∉ ['\\'] := by decide
  rw [declaredOnLine?, declaredOnLine?, dropWhile_append_stop hblank,
    afterWord?_append_stop hkeyword]
  cases afterWord? "namespace".toList (u.dropWhile isBlank) with
  | none => rfl
  | some beyond =>
    cases beyond with
    | nil => rfl
    | cons c path =>
      simp only [Option.map_some, Option.bind_eq_bind, Option.bind_some, List.cons_append]
      split
      · rw [dropWhile_append_stop hblank, afterWord?_append_stop hsep]
        cases afterWord? ['\\'] (path.dropWhile isBlank) with
        | none => exact namespacePath?_append_bracket _ rest
        | some inner => exact namespacePath?_append_bracket inner rest
      · rfl

/-! ### However its checks are written -/

section Written

variable {write write' : BareCheck → List Char} (hw : WritesCalls write)
  (hw' : WritesCalls write')

include hw

theorem newline_not_mem_render {pieces : List Piece} (h : .char '\n' ∉ pieces) :
    '\n' ∉ render write pieces := by
  rw [render, List.mem_flatMap]
  rintro ⟨p, hp, hmem⟩
  cases p with
  | char c =>
    obtain rfl := List.mem_singleton.1 hmem
    exact h hp
  | check k => exact hw.newline_not_mem k hmem

/-- What a line declares stands before its first check. -/
theorem declaredOnLine?_render_check (front : List Char) (k : BareCheck) (rest : List Piece) :
    declaredOnLine? (render write (front.map .char ++ .check k :: rest)) =
      declaredOnLine? (front ++ ExistenceCheck.callee ++ k.beforeBracket) := by
  obtain ⟨more, hmore⟩ := hw.isPrefix_lead k
  have htext : render write (front.map .char ++ .check k :: rest) =
      front ++ ExistenceCheck.callee ++ k.beforeBracket ++
        '(' :: (k.afterBracket ++ more ++ render write rest) := by
    rw [render_append, render_map_char, render_cons, Piece.render, ← hmore, BareCheck.lead]
    simp
  rw [htext, declaredOnLine?_append_bracket]

include hw'

theorem declaredOnLine?_render (line : List Piece) :
    declaredOnLine? (render write line) = declaredOnLine? (render write' line) := by
  rcases exists_eq_map_char_append line with ⟨text, rfl⟩ | ⟨front, k, rest, rfl⟩
  · rw [render_map_char, render_map_char]
  · rw [declaredOnLine?_render_check hw, declaredOnLine?_render_check hw']

/-- A text declares the same, however its checks are written. -/
theorem declaredNamespace?_render (pieces : List Piece) :
    declaredNamespace? (render write pieces) = declaredNamespace? (render write' pieces) := by
  induction hlength : pieces.length using Nat.strong_induction_on generalizing pieces with
  | _ n ih =>
    subst hlength
    have hline : ∀ line : List Piece, .char '\n' ∉ line →
        declaredNamespace? (render write line) = declaredNamespace? (render write' line) := by
      intro line h
      rw [declaredNamespace?_of_not_mem (newline_not_mem_render hw h),
        declaredNamespace?_of_not_mem (newline_not_mem_render hw' h),
        declaredOnLine?_render hw hw']
    by_cases h : .char '\n' ∈ pieces
    · obtain ⟨line, more, rfl, hfree⟩ := List.eq_append_cons_of_mem h
      have hsplit : ∀ write : BareCheck → List Char, render write (line ++ .char '\n' :: more) =
          render write line ++ '\n' :: render write more := by
        intro write
        rw [render_append, render_cons]
        rfl
      rw [hsplit, hsplit, declaredNamespace?_append_newline, declaredNamespace?_append_newline,
        hline line hfree, ih more.length (by simp; omega) more rfl]
    · exact hline pieces h

theorem head?_render (pieces : List Piece) :
    (render write pieces).head? = (render write' pieces).head? := by
  cases pieces with
  | nil => rfl
  | cons p pieces =>
    cases p with
    | char c => rfl
    | check k =>
      obtain ⟨tail, hk, -⟩ := hw.exists_cons k
      obtain ⟨tail', hk', -⟩ := hw'.exists_cons k
      rw [render_cons, render_cons, Piece.render, Piece.render, hk, hk']
      rfl

end Written

/-! ### What branding leaves at the head of a text -/

theorem absorb_char_cons {w c : Char} (h : w ≠ c) (word : List Char) (cell : Cell)
    (cells : List Cell) :
    absorb (w :: word) cell (.char c :: cells) = .char c :: absorb (w :: word) cell cells := by
  rw [absorb_cons, if_neg]
  rw [afterChars?, if_neg h]
  simp

theorem absorb_written_char_cons {c : Char} (h : '\x00' ≠ c) (m : Mark) (cells : List Cell) :
    absorb m.written (.mark m) (.char c :: cells) =
      .char c :: absorb m.written (.mark m) cells := by
  cases m <;> exact absorb_char_cons h _ _ _

theorem mem_absorb {word : List Char} {cell c : Cell} {cells : List Cell}
    (h : c ∈ absorb word cell cells) : c = cell ∨ c ∈ cells := by
  induction hlength : cells.length using Nat.strong_induction_on generalizing cells with
  | _ n ih =>
    subst hlength
    cases cells with
    | nil => exact absurd h List.not_mem_nil
    | cons d cells =>
      rw [absorb_cons] at h
      split at h
      · rcases List.mem_cons.1 h with rfl | h
        · exact Or.inl rfl
        · have hshorter : (cells.drop (word.length - 1)).length < (d :: cells).length := by
            rw [List.length_drop, List.length_cons]
            omega
          exact (ih _ hshorter h rfl).imp_right fun h =>
            List.mem_cons_of_mem d (List.mem_of_mem_drop h)
      · rcases List.mem_cons.1 h with rfl | h
        · exact Or.inr List.mem_cons_self
        · exact (ih _ (by simp) h rfl).imp_right (List.mem_cons_of_mem d)

theorem mem_of_char_mem_cells {c : Char} {text : List Char} (h : .char c ∈ cells text) :
    c ∈ text := by
  have hmem := (mem_absorb ((mem_absorb ((mem_absorb h).resolve_left nofun)).resolve_left
    nofun)).resolve_left nofun
  rw [List.mem_map] at hmem
  obtain ⟨a, ha, hac⟩ := hmem
  rwa [← Cell.char.inj hac]

/-- Neither a mark nor an occurrence of the placeholder begins with any other character than these
do. -/
theorem cells_cons {c : Char} (hnul : '\x00' ≠ c) (hcapital : 'W' ≠ c) (text : List Char) :
    cells (c :: text) = .char c :: cells text := by
  rw [cells, List.map_cons, absorb_written_char_cons hnul, absorb_written_char_cons hnul]
  exact absorb_char_cons hcapital _ _ _

theorem cells_append_of_not_mem {u : List Char} (hnul : '\x00' ∉ u) (hcapital : 'W' ∉ u)
    (v : List Char) : cells (u ++ v) = u.map .char ++ cells v := by
  induction u with
  | nil => rfl
  | cons c u ih =>
    rw [List.mem_cons, not_or] at hnul hcapital
    rw [List.cons_append, cells_cons hnul.1 hcapital.1, ih hnul.2 hcapital.2]
    rfl

/-- A text that does not begin with a NUL begins with no mark. -/
theorem exists_cells_eq_cons {c : Char} (hnul : '\x00' ≠ c) (text : List Char) :
    ∃ d rest, cells (c :: text) = d :: rest ∧ (d = .char c ∨ d = .name) := by
  rw [cells, List.map_cons, absorb_written_char_cons hnul, absorb_written_char_cons hnul,
    absorb_cons]
  split
  · exact ⟨.name, _, rfl, Or.inr rfl⟩
  · exact ⟨.char c, _, rfl, Or.inl rfl⟩

/-- Characters are not claimed. -/
theorem Claimed.exists_of_map_char {u : List Char} {cells claimed : List Cell}
    (h : Claimed (u.map .char ++ cells) claimed) :
    ∃ rest, claimed = u.map .char ++ rest ∧ Claimed cells rest := by
  induction u generalizing claimed with
  | nil => exact ⟨claimed, rfl, h⟩
  | cons c u ih =>
    cases h with
    | cons hc h =>
      cases hc
      obtain ⟨rest, rfl, hrest⟩ := ih h
      exact ⟨rest, rfl, hrest⟩

/-- Branding leaves a word at the head of a text. -/
theorem isPrefix_brandModule (b : Brand) {word text : List Char} (hnul : '\x00' ∉ word)
    (hcapital : 'W' ∉ word) (h : word <+: text) : word <+: brandModule b text := by
  obtain ⟨rest, rfl⟩ := h
  have hclaimed := claimed_stageAll moduleShapes (cells (word ++ rest))
  rw [cells_append_of_not_mem hnul hcapital] at hclaimed
  obtain ⟨more, hmore, -⟩ := hclaimed.exists_of_map_char
  rw [brandModule, brandShapes, cells_append_of_not_mem hnul hcapital, hmore, expand_append,
    expand_map_char]
  exact List.prefix_append ..

theorem openingTag_isPrefix_brandModule (b : Brand) {text : List Char} (h : openingTag <+: text) :
    openingTag <+: brandModule b text :=
  isPrefix_brandModule b (by decide) (by decide) h

/-- It puts no opening tag there either, where the text holds no marks. -/
theorem openingTag_isPrefix_brandModule_iff (b : Brand) {text : List Char}
    (hnul : '\x00' ∉ text) : openingTag <+: brandModule b text ↔ openingTag <+: text := by
  refine ⟨fun h => ?_, openingTag_isPrefix_brandModule b⟩
  have htag : openingTag.all (fun c => !isLead c) = true := by decide
  have hleads : ∀ c ∈ openingTag, isLead c = false := by simpa using htag
  have hled := (quiet_stageAll Shape.inOrder_moduleShapes (led_nameCells text) (by simp)).1
  rw [brandModule, brandShapes, cells_eq_nameCells hnul] at h
  have hprefix := prefix_expand_placeholder hleads (by simp) hled.leadsMarks h
  rwa [(claimed_stageAll moduleShapes (nameCells text)).expand_eq, expand_nameCells] at hprefix

/-! ### Declarations through branding -/

/-- What stands on a line before the namespace that it declares. -/
def DeclarationLead (lead : List Char) : Prop :=
  ∃ indent gap sep, Blanks indent ∧ Blanks gap ∧ gap ≠ [] ∧ (sep = [] ∨ sep = [separator]) ∧
    lead = indent ++ "namespace".toList ++ gap ++ sep

/-- A name, with or without a separator before it. -/
theorem exists_of_head?_getD_afterWord? {path : List Char}
    (h : ((afterWord? [separator] path).getD path).head?.any isNameStart = true) :
    ∃ sep first rest, (sep = [] ∨ sep = [separator]) ∧ isNameStart first = true ∧
      path = sep ++ first :: rest := by
  have hhead : ∀ {text : List Char}, text.head?.any isNameStart = true →
      ∃ first rest, isNameStart first = true ∧ text = first :: rest := by
    intro text
    cases text <;> simp
  cases hafter : afterWord? [separator] path with
  | none =>
    rw [hafter, Option.getD_none] at h
    obtain ⟨first, rest, hfirst, rfl⟩ := hhead h
    exact ⟨[], first, rest, Or.inl rfl, hfirst, rfl⟩
  | some inner =>
    rw [hafter, Option.getD_some] at h
    obtain ⟨first, rest, hfirst, rfl⟩ := hhead h
    exact ⟨[separator], first, rest, Or.inr rfl, hfirst, afterWord?_eq_some_iff.1 hafter⟩

/-- A line declares the namespace behind the keyword. -/
theorem declaredOnLine?_lead_append {lead : List Char} (hlead : DeclarationLead lead)
    {first : Char} (hfirst : isNameStart first = true) (rest : List Char) :
    declaredOnLine? (lead ++ first :: rest) = namespacePath? (first :: rest) := by
  obtain ⟨indent, gap, sep, hindent, hgap, hne, hsep, rfl⟩ := hlead
  obtain ⟨c, gap, rfl⟩ := List.exists_cons_of_ne_nil hne
  obtain ⟨hc, hgap⟩ := List.forall_mem_cons.1 hgap
  have hblank := isBlank_eq_false_of_isNameChar (isNameChar_of_isNameStart hfirst)
  have hseparator : separator ≠ first := by
    rintro rfl
    exact absurd hfirst (by decide)
  have htext : indent ++ "namespace".toList ++ c :: gap ++ sep ++ first :: rest =
      indent ++ ("namespace".toList ++ c :: (gap ++ (sep ++ first :: rest))) := by simp
  rw [htext, declaredOnLine?, dropWhile_blanks_append hindent (by simp; decide), afterWord?_append]
  simp only [Option.bind_eq_bind, Option.bind_some, if_pos hc]
  rcases hsep with rfl | rfl
  · rw [List.nil_append, dropWhile_blanks_cons hgap hblank, afterWord?,
      if_neg (show '\\' ≠ first from hseparator), Option.getD_none]
  · rw [List.singleton_append, dropWhile_blanks_cons hgap (by decide)]
    rfl

theorem isSome_declaredOnLine?_iff_exists_lead {line : List Char} :
    (declaredOnLine? line).isSome = true ↔
      ∃ lead first rest, DeclarationLead lead ∧ isNameStart first = true ∧
        line = lead ++ first :: rest := by
  constructor
  · intro h
    obtain ⟨c, beyond, hline, hc, hopens⟩ := isSome_declaredOnLine?_iff.1 h
    obtain ⟨indent, tail, hindent, htail, rfl⟩ := exists_blanks_append line
    obtain ⟨gap, path, hgap, hpath, rfl⟩ := exists_blanks_append beyond
    rw [dropWhile_blanks_append hindent htail] at hline
    rw [dropWhile_blanks_append hgap hpath] at hopens
    obtain ⟨sep, first, rest, hsep, hfirst, rfl⟩ := exists_of_head?_getD_afterWord? hopens
    refine ⟨_, first, rest, ⟨indent, c :: gap, sep, hindent, ?_, by simp, hsep, rfl⟩, hfirst, ?_⟩
    · exact List.forall_mem_cons.2 ⟨hc, hgap⟩
    · rw [hline]
      simp
  · rintro ⟨lead, first, rest, hlead, hfirst, rfl⟩
    rw [declaredOnLine?_lead_append hlead hfirst, isSome_namespacePath?]
    exact hfirst

/-- Blanks, the keyword and a separator are all that it holds. -/
theorem DeclarationLead.not_mem {lead : List Char} (h : DeclarationLead lead) {c : Char}
    (hc : isBlank c = false ∧ c ∉ "namespace".toList ∧ c ≠ separator) : c ∉ lead := by
  obtain ⟨indent, gap, sep, hindent, hgap, -, hsep, rfl⟩ := h
  obtain ⟨hblank, hkeyword, hne⟩ := hc
  have hseparator : c ∉ sep := by rcases hsep with rfl | rfl <;> simp [hne]
  simp only [List.mem_append, not_or]
  exact ⟨⟨⟨not_mem_of_blanks hblank hindent, hkeyword⟩, not_mem_of_blanks hblank hgap⟩, hseparator⟩

/-- A declaration is not touched by the marks that a line holds. -/
theorem isSome_declaredOnLine?_cells {line : List Char} (h : (declaredOnLine? line).isSome = true) :
    (declaredOnLine? (expand placeholder (cells line))).isSome = true := by
  obtain ⟨lead, first, rest, hlead, hfirst, rfl⟩ := isSome_declaredOnLine?_iff_exists_lead.1 h
  have hnul : '\x00' ≠ first := by
    rintro rfl
    exact absurd hfirst (by decide)
  obtain ⟨d, more, hcells, hd⟩ := exists_cells_eq_cons hnul rest
  obtain ⟨first', rest', hexpand, hfirst'⟩ : ∃ first' rest',
      d.expand placeholder = first' :: rest' ∧ isNameStart first' = true := by
    rcases hd with rfl | rfl
    · exact ⟨first, [], rfl, hfirst⟩
    · exact ⟨'W', _, rfl, by decide⟩
  rw [isSome_declaredOnLine?_iff_exists_lead]
  refine ⟨lead, first', rest' ++ expand placeholder more, hlead, hfirst', ?_⟩
  rw [cells_append_of_not_mem (hlead.not_mem (by decide)) (hlead.not_mem (by decide)),
    expand_append, expand_map_char, hcells, expand_cons, hexpand, List.cons_append]

theorem isSome_declaredNamespace?_cells {text : List Char}
    (h : (declaredNamespace? text).isSome = true) :
    (declaredNamespace? (expand placeholder (cells text))).isSome = true := by
  induction hlength : text.length using Nat.strong_induction_on generalizing text with
  | _ n ih =>
    subst hlength
    have hline : ∀ {line : List Char}, '\n' ∉ line → (declaredNamespace? line).isSome = true →
        (declaredNamespace? (expand placeholder (cells line))).isSome = true := by
      intro line hfree h
      have hfree' : '\n' ∉ expand placeholder (cells line) :=
        newline_not_mem_expand (fun _ => spells_placeholder) fun hmem =>
          hfree (mem_of_char_mem_cells hmem)
      rw [declaredNamespace?_of_not_mem hfree] at h
      rw [declaredNamespace?_of_not_mem hfree']
      exact isSome_declaredOnLine?_cells h
    obtain ⟨line, more, hfree, rfl, rfl | ⟨more, rfl⟩⟩ := exists_line_append text
    · rw [List.append_nil] at h ⊢
      exact hline hfree h
    · rw [declaredNamespace?_append_newline, Option.isSome_or, Bool.or_eq_true] at h
      rw [cells_append_newline, expand_append, expand_cons, Cell.expand, List.singleton_append,
        declaredNamespace?_append_newline, Option.isSome_or, Bool.or_eq_true]
      exact h.imp (hline hfree) fun h => ih _ (by simp; omega) h rfl

/-- Branding takes no declaration away. -/
theorem isSome_declaredNamespace?_brandModule (b : Brand) {text : List Char}
    (h : (declaredNamespace? text).isSome = true) :
    (declaredNamespace? (brandModule b text)).isSome = true := by
  have hcells := isSome_declaredNamespace?_cells h
  rw [← (claimed_stageAll moduleShapes (cells text)).expand_eq,
    Option.isSome_iff_ne_none] at hcells
  rw [Option.isSome_iff_ne_none, brandModule, brandShapes]
  rwa [ne_eq, declaredNamespace?_expand_eq_none_iff (fun _ => b.spells_target)]

end Branding
