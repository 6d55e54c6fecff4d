import Branding.Proofs.Source.DeclarationLine
import Branding.Source.EntryHelper

/-!
# Existence checks in a text

A check on a bare name is a call with the name in quotes and nothing but blanks around it. To
qualify the checks of a text is to put the target namespace in front of each of these names and to
touch nothing else. To say this of a whole text, the text is read into *pieces*, characters and
checks. A text and what becomes of it are then two renderings of the same pieces.

That the reading is the only one comes down to one fact. Wherever a check stands, its callee is
followed by a blank or a bracket, and neither in a check nor in a qualified check does that happen
anywhere but at its very beginning. So no check begins within another one, and qualifying makes no
new check.

## Main definitions

* `BareCheck` — a check on a bare name, as it is written
* `BareCheck.StandsIn` — a check stands in a text, where a word starts
* `Piece`, `render` — a text in characters and checks
* `Reads` — the pieces of a text
* `CallFree` — a stretch of text in which no call of the callee begins

## Main results

* `exists_reads` — every text has pieces, and qualifying its checks is rendering them otherwise
* `Reads.standsIn_iff` — the checks of a text are those among its pieces
* `Reads.not_standsIn_qualified` — no check on a bare name is left
-/

namespace Branding

/-! ### A check as it is written -/

/-- A check on a bare name, as it is written: blanks are allowed on both sides of the opening
bracket and before the closing one, and the name stands in two quotes of one kind. -/
@[ext]
structure BareCheck where
  beforeBracket : List Char
  afterBracket : List Char
  quote : Char
  name : List Char
  beforeEnd : List Char
  blanks_beforeBracket : Blanks beforeBracket
  blanks_afterBracket : Blanks afterBracket
  isQuote : quote = '\'' ∨ quote = '"'
  isIdentifier_name : isIdentifier name = true
  blanks_beforeEnd : Blanks beforeEnd

namespace BareCheck

/-- The callee, the bracket and the blanks around it. -/
def lead (k : BareCheck) : List Char :=
  ExistenceCheck.callee ++ k.beforeBracket ++ '(' :: k.afterBracket

/-- What closes the call. -/
def tail (k : BareCheck) : List Char := k.beforeEnd ++ [')']

/-- The text of a check. -/
def text (k : BareCheck) : List Char := k.lead ++ k.quote :: k.name ++ k.quote :: k.tail

/-- The check on the same name in the target namespace, in single quotes. -/
def qualified (target : List Char) (k : BareCheck) : List Char :=
  k.lead ++ '\'' :: target ++ separator :: k.name ++ '\'' :: k.tail

theorem quote_not_isNameChar (k : BareCheck) : isNameChar k.quote = false := by
  rcases k.isQuote with h | h <;> rw [h] <;> decide

theorem quote_not_isBlank (k : BareCheck) : isBlank k.quote = false := by
  rcases k.isQuote with h | h <;> rw [h] <;> decide

end BareCheck

/-- A word starts where the text ends. -/
def StartsWord (before : List Char) : Prop := ∀ c ∈ before.getLast?, isWord c = false

/-- A check stands in a text behind `before`, and a word starts there. -/
def BareCheck.StandsIn (k : BareCheck) (text before : List Char) : Prop :=
  StartsWord before ∧ ∃ after, text = before ++ k.text ++ after

/-! ### Reading a check -/

/-- Two ways to cut a text behind a run of characters of one class are the same. -/
theorem append_cons_inj_of_run {p : Char → Bool} {u u' rest rest' : List Char} {c c' : Char}
    (hu : ∀ a ∈ u, p a = true) (hu' : ∀ a ∈ u', p a = true) (hc : p c = false)
    (hc' : p c' = false) (h : u ++ c :: rest = u' ++ c' :: rest') :
    u = u' ∧ c = c' ∧ rest = rest' := by
  have hcut : ∀ {u : List Char} {c : Char} (rest : List Char), (∀ a ∈ u, p a = true) →
      p c = false → (u ++ c :: rest).takeWhile p = u := by
    intro u c rest hu hc
    rw [List.takeWhile_append_of_pos hu, List.takeWhile_cons, if_neg (by simp [hc]),
      List.append_nil]
  obtain rfl : u = u' := by rw [← hcut rest hu hc, h, hcut rest' hu' hc']
  exact ⟨rfl, List.cons.inj (List.append_cancel_left h)⟩

theorem takeWhile_blanks_append {gap rest : List Char} {c : Char} (hgap : Blanks gap)
    (hc : isBlank c = false) : (gap ++ c :: rest).takeWhile isBlank = gap := by
  rw [List.takeWhile_append_of_pos hgap, List.takeWhile_cons, if_neg (by simp [hc]),
    List.append_nil]

theorem dropWhile_blanks_cons {gap rest : List Char} {c : Char} (hgap : Blanks gap)
    (hc : isBlank c = false) : (gap ++ c :: rest).dropWhile isBlank = c :: rest :=
  dropWhile_blanks_append hgap (by simpa using hc)

theorem not_mem_of_blanks {c : Char} (hc : isBlank c = false) {gap : List Char}
    (hgap : Blanks gap) : c ∉ gap := by
  intro h
  rw [hgap c h] at hc
  cases hc

theorem isIdentifier_of_afterName? {text name rest : List Char}
    (h : afterName? text = some (name, rest)) : isIdentifier name = true := by
  cases text with
  | nil => cases h
  | cons c text =>
    rw [afterName?] at h
    split at h
    next hc =>
      cases h
      rw [isIdentifier, Bool.and_eq_true, List.all_eq_true]
      exact ⟨hc, fun a ha => List.mem_takeWhile_imp ha⟩
    next => cases h

theorem quotedName?_eq_some {text name rest : List Char}
    (h : ExistenceCheck.quotedName? text = some (name, rest)) :
    ∃ q, (q = '\'' ∨ q = '"') ∧ isIdentifier name = true ∧ text = q :: name ++ q :: rest := by
  cases text with
  | nil => cases h
  | cons q text =>
    rw [ExistenceCheck.quotedName?] at h
    split at h
    next hq =>
      obtain ⟨⟨name', rest'⟩, hname, h⟩ := Option.bind_eq_some_iff.1 h
      obtain ⟨rest'', hrest, h⟩ := Option.bind_eq_some_iff.1 h
      cases h
      refine ⟨q, hq, isIdentifier_of_afterName? hname, ?_⟩
      rw [← append_of_afterName? hname, afterWord?_eq_some_iff.1 hrest]
      simp
    next => cases h

theorem quotedName?_append {q : Char} (hq : q = '\'' ∨ q = '"') {name : List Char}
    (hname : isIdentifier name = true) (rest : List Char) :
    ExistenceCheck.quotedName? (q :: (name ++ q :: rest)) = some (name, rest) := by
  have hquote : isNameChar q = false := by rcases hq with rfl | rfl <;> decide
  have hread : afterName? (name ++ q :: rest) = some (name, q :: rest) :=
    afterName?_append hname (by simpa using hquote)
  rw [ExistenceCheck.quotedName?, if_pos hq, hread]
  simp [afterWord?]

/-- What is read at the head of a text is a check that is written there. -/
theorem exists_of_read? {text : List Char} {check : ExistenceCheck}
    (h : ExistenceCheck.read? text = some check) :
    ∃ (k : BareCheck) (rest : List Char), text = k.text ++ rest ∧
      check = ⟨k.lead, k.name, k.tail, rest⟩ := by
  obtain ⟨afterCallee, hcallee, h⟩ := Option.bind_eq_some_iff.1 h
  obtain ⟨inner, hinner, h⟩ := Option.bind_eq_some_iff.1 h
  obtain ⟨⟨name, outer⟩, hname, h⟩ := Option.bind_eq_some_iff.1 h
  obtain ⟨rest, hrest, h⟩ := Option.bind_eq_some_iff.1 h
  obtain ⟨q, hq, hidentifier, hquoted⟩ := quotedName?_eq_some hname
  have hblanks : ∀ text : List Char, Blanks (text.takeWhile isBlank) :=
    fun text c hc => List.mem_takeWhile_imp hc
  refine ⟨⟨afterCallee.takeWhile isBlank, inner.takeWhile isBlank, q, name,
    outer.takeWhile isBlank, hblanks _, hblanks _, hq, hidentifier, hblanks _⟩, rest, ?_, ?_⟩
  · rw [afterWord?_eq_some_iff.1 hcallee]
    nth_rewrite 1 [← List.takeWhile_append_dropWhile (p := isBlank) (l := afterCallee)]
    rw [afterWord?_eq_some_iff.1 hinner]
    nth_rewrite 1 [← List.takeWhile_append_dropWhile (p := isBlank) (l := inner)]
    rw [hquoted]
    nth_rewrite 1 [← List.takeWhile_append_dropWhile (p := isBlank) (l := outer)]
    rw [afterWord?_eq_some_iff.1 hrest]
    simp [BareCheck.text, BareCheck.lead, BareCheck.tail]
  · cases h
    rfl

theorem read?_text_append (k : BareCheck) (rest : List Char) :
    ExistenceCheck.read? (k.text ++ rest) = some ⟨k.lead, k.name, k.tail, rest⟩ := by
  have htext : k.text ++ rest = ExistenceCheck.callee ++ (k.beforeBracket ++ '(' ::
      (k.afterBracket ++ k.quote :: (k.name ++ k.quote :: (k.beforeEnd ++ ')' :: rest)))) := by
    simp [BareCheck.text, BareCheck.lead, BareCheck.tail]
  have hone : ∀ (c : Char) (rest : List Char), afterWord? [c] (c :: rest) = some rest :=
    fun c rest => afterWord?_append [c] rest
  have hbracket : isBlank '(' = false := by decide
  have hend : isBlank ')' = false := by decide
  rw [htext, ExistenceCheck.read?]
  simp only [afterWord?_append, Option.bind_eq_bind, Option.bind_some, hone,
    dropWhile_blanks_cons k.blanks_beforeBracket hbracket,
    takeWhile_blanks_append k.blanks_beforeBracket hbracket,
    dropWhile_blanks_cons k.blanks_afterBracket k.quote_not_isBlank,
    takeWhile_blanks_append k.blanks_afterBracket k.quote_not_isBlank,
    quotedName?_append k.isQuote k.isIdentifier_name,
    dropWhile_blanks_cons k.blanks_beforeEnd hend,
    takeWhile_blanks_append k.blanks_beforeEnd hend]
  rfl

/-- A check that stands at the head of a text is the only one. -/
theorem BareCheck.text_append_inj {k k' : BareCheck} {rest rest' : List Char}
    (h : k.text ++ rest = k'.text ++ rest') : k = k' ∧ rest = rest' := by
  have hsplit : ∀ (k : BareCheck) (rest : List Char), k.text ++ rest = ExistenceCheck.callee ++
      (k.beforeBracket ++ '(' :: (k.afterBracket ++ k.quote ::
        (k.name ++ k.quote :: (k.beforeEnd ++ ')' :: rest)))) := by
    intro k rest
    simp [BareCheck.text, BareCheck.lead, BareCheck.tail]
  rw [hsplit, hsplit] at h
  obtain ⟨hbefore, -, h⟩ := append_cons_inj_of_run k.blanks_beforeBracket k'.blanks_beforeBracket
    (by decide) (by decide) (List.append_cancel_left h)
  obtain ⟨hafter, hquote, h⟩ := append_cons_inj_of_run k.blanks_afterBracket
    k'.blanks_afterBracket k.quote_not_isBlank k'.quote_not_isBlank h
  obtain ⟨hname, -, h⟩ := append_cons_inj_of_run
    (isNameChar_of_isIdentifier k.isIdentifier_name)
    (isNameChar_of_isIdentifier k'.isIdentifier_name)
    k.quote_not_isNameChar k'.quote_not_isNameChar h
  obtain ⟨hend, -, h⟩ := append_cons_inj_of_run k.blanks_beforeEnd k'.blanks_beforeEnd
    (by decide) (by decide) h
  exact ⟨BareCheck.ext hbefore hafter hquote hname hend, h⟩

/-! ### Where a call begins -/

/-- The callee stands at the head of a text, and what follows makes it a call. -/
def Calls (text : List Char) : Prop :=
  ∃ c rest, text = ExistenceCheck.callee ++ c :: rest ∧ (isBlank c = true ∨ c = '(')

/-- In a stretch of text no call begins, given what comes after it. -/
def CallFree (stretch after : List Char) : Prop :=
  ∀ front rest, stretch = front ++ rest → rest ≠ [] → ¬ Calls (rest ++ after)

namespace CallFree

variable {u v after : List Char}

theorem tail {c : Char} (h : CallFree (c :: u) after) : CallFree u after := by
  rintro front rest rfl hne
  exact h (c :: front) rest rfl hne

theorem not_calls (h : CallFree u after) (hne : u ≠ []) : ¬ Calls (u ++ after) :=
  h [] u rfl hne

theorem append (hu : CallFree u (v ++ after)) (hv : CallFree v after) :
    CallFree (u ++ v) after := by
  intro front rest heq hne
  rcases List.append_eq_append_iff.1 heq with ⟨part, rfl, hv'⟩ | ⟨part, rfl, rfl⟩
  · exact hv part rest hv' hne
  · cases part with
    | nil => exact hv [] v rfl (by simpa using hne)
    | cons c part =>
      rw [List.append_assoc]
      exact hu front (c :: part) rfl (by simp)

/-- A call begins with the first letter of the callee. -/
theorem of_not_mem (h : 'f' ∉ u) : CallFree u after := by
  rintro front rest rfl hne ⟨c, rest', hrest, -⟩
  obtain ⟨a, rest, rfl⟩ := List.exists_cons_of_ne_nil hne
  obtain rfl : a = 'f' := (List.cons.inj hrest).1
  exact h (by simp)

/-- A name that something else follows is no callee. -/
theorem of_name {c : Char} (hu : ∀ a ∈ u, isNameChar a = true)
    (hc : isNameChar c = false ∧ isBlank c = false ∧ c ≠ '(') : CallFree u (c :: after) := by
  rintro front rest rfl - ⟨d, rest', hrest, hd⟩
  have hcallee : ∀ a ∈ ExistenceCheck.callee, isNameChar a = true :=
    List.all_eq_true.1 (by decide : ExistenceCheck.callee.all isNameChar = true)
  have hd' : isNameChar d = false := by
    rcases hd with hd | rfl
    · rw [Bool.eq_false_iff]
      intro hname
      rw [isBlank_eq_false_of_isNameChar hname] at hd
      cases hd
    · decide
  obtain ⟨-, rfl, -⟩ := append_cons_inj_of_run
    (fun a ha => hu a (List.mem_append_right _ ha)) hcallee hc.1 hd' hrest
  rcases hd with hd | hd
  · rw [hc.2.1] at hd
    cases hd
  · exact hc.2.2 hd

end CallFree

/-! ### Pieces -/

/-- A piece of a text: a check, or a character outside of all checks. -/
inductive Piece where
  | char (c : Char)
  | check (k : BareCheck)

/-- The text of a piece, given that of a check. -/
def Piece.render (write : BareCheck → List Char) : Piece → List Char
  | .char c => [c]
  | .check k => write k

/-- The text of pieces, given that of a check. -/
def render (write : BareCheck → List Char) (pieces : List Piece) : List Char :=
  pieces.flatMap (Piece.render write)

@[simp] theorem render_nil (write : BareCheck → List Char) : render write [] = [] := rfl

@[simp] theorem render_cons (write : BareCheck → List Char) (p : Piece) (pieces : List Piece) :
    render write (p :: pieces) = p.render write ++ render write pieces := by
  simp [render]

@[simp] theorem render_append (write : BareCheck → List Char) (a b : List Piece) :
    render write (a ++ b) = render write a ++ render write b := by
  simp [render]

@[simp] theorem render_map_char (write : BareCheck → List Char) (text : List Char) :
    render write (text.map .char) = text := by
  induction text with
  | nil => rfl
  | cons c text ih => rw [List.map_cons, render_cons, ih]; rfl

/-- A text is characters only, or characters as far as its first check. -/
theorem exists_eq_map_char_append (pieces : List Piece) :
    (∃ text : List Char, pieces = text.map .char) ∨
      ∃ (front : List Char) (k : BareCheck) (rest : List Piece),
        pieces = front.map .char ++ .check k :: rest := by
  induction pieces with
  | nil => exact Or.inl ⟨[], rfl⟩
  | cons p pieces ih =>
    cases p with
    | check k => exact Or.inr ⟨[], k, pieces, rfl⟩
    | char c =>
      rcases ih with ⟨text, rfl⟩ | ⟨front, k, rest, rfl⟩
      · exact Or.inl ⟨c :: text, rfl⟩
      · exact Or.inr ⟨c :: front, k, rest, rfl⟩

/-- A way to write checks on one line, in which a call begins where a check does and nowhere
else. -/
structure WritesCalls (write : BareCheck → List Char) : Prop where
  isPrefix_lead : ∀ k, k.lead <+: write k
  exists_cons : ∀ k, ∃ tail, write k = 'f' :: tail ∧ ∀ after, CallFree tail after
  exists_concat : ∀ k, ∃ front, write k = front ++ [')']
  newline_not_mem : ∀ k, '\n' ∉ write k

theorem BareCheck.not_mem_lead (k : BareCheck) {c : Char} (hblank : isBlank c = false)
    (hc : c ∉ ExistenceCheck.callee ++ ['(']) : c ∉ k.lead := by
  rw [List.mem_append, not_or, List.mem_singleton] at hc
  simp [BareCheck.lead, hc, not_mem_of_blanks hblank k.blanks_beforeBracket,
    not_mem_of_blanks hblank k.blanks_afterBracket]

theorem BareCheck.not_mem_tail (k : BareCheck) {c : Char} (hblank : isBlank c = false)
    (hc : c ≠ ')') : c ∉ k.tail := by
  simp [BareCheck.tail, hc, not_mem_of_blanks hblank k.blanks_beforeEnd]

theorem BareCheck.not_mem_name (k : BareCheck) {c : Char} (hc : isNameChar c = false) :
    c ∉ k.name := by
  intro h
  rw [isNameChar_of_isIdentifier k.isIdentifier_name c h] at hc
  cases hc

theorem exists_lead_eq_cons (k : BareCheck) :
    ∃ tail, k.lead = 'f' :: tail ∧ 'f' ∉ tail := by
  have hgap : ∀ {gap : List Char}, Blanks gap → 'f' ∉ gap := not_mem_of_blanks (by decide)
  refine ⟨"unction_exists".toList ++ k.beforeBracket ++ '(' :: k.afterBracket, rfl, ?_⟩
  simp [hgap k.blanks_beforeBracket, hgap k.blanks_afterBracket]

theorem writesCalls_text : WritesCalls BareCheck.text where
  isPrefix_lead k := by
    rw [BareCheck.text, List.append_assoc]
    exact List.prefix_append _ _
  exists_cons k := by
    obtain ⟨tail, hlead, hnot⟩ := exists_lead_eq_cons k
    have hquote : k.quote ≠ 'f' ∧ isBlank k.quote = false ∧ k.quote ≠ '(' := by
      rcases k.isQuote with h | h <;> rw [h] <;> decide
    refine ⟨tail ++ [k.quote] ++ k.name ++ (k.quote :: k.tail), ?_, fun after => ?_⟩
    · simp [BareCheck.text, hlead]
    · refine .append (.append (.of_not_mem ?_) (.of_name ?_ ?_)) (.of_not_mem ?_)
      · simp [hnot, Ne.symm hquote.1]
      · exact isNameChar_of_isIdentifier k.isIdentifier_name
      · exact ⟨k.quote_not_isNameChar, hquote.2⟩
      · have htail : 'f' ∉ k.tail := k.not_mem_tail (by decide) (by decide)
        simp [htail, Ne.symm hquote.1]
  exists_concat k :=
    ⟨k.lead ++ k.quote :: k.name ++ k.quote :: k.beforeEnd, by
      simp [BareCheck.text, BareCheck.tail]⟩
  newline_not_mem k := by
    have hlead : '\n' ∉ k.lead := k.not_mem_lead (by decide) (by decide)
    have hname : '\n' ∉ k.name := k.not_mem_name (by decide)
    have htail : '\n' ∉ k.tail := k.not_mem_tail (by decide) (by decide)
    have hquote : '\n' ≠ k.quote := by rcases k.isQuote with h | h <;> rw [h] <;> decide
    simp [BareCheck.text, hlead, hname, htail, hquote]

theorem Brand.newline_not_mem_target (b : Brand) : '\n' ∉ b.target :=
  (b.spells_target (c := .mark .plain) nofun).newline_not_mem

theorem writesCalls_qualified (b : Brand) : WritesCalls (BareCheck.qualified b.target) where
  isPrefix_lead k := by
    rw [BareCheck.qualified, List.append_assoc, List.append_assoc]
    exact List.prefix_append _ _
  exists_cons k := by
    obtain ⟨tail, hlead, hnot⟩ := exists_lead_eq_cons k
    refine ⟨tail ++ ['\''] ++ b.name.toList ++ (separator :: placeholder ++ [separator]) ++
      k.name ++ ('\'' :: k.tail), ?_, fun after => ?_⟩
    · simp [BareCheck.qualified, hlead, Brand.target]
    · refine .append (.append (.append (.append (.of_not_mem ?_) (.of_name ?_ ?_))
        (.of_not_mem ?_)) (.of_name ?_ ?_)) (.of_not_mem ?_)
      · simp [hnot]
      · exact fun c hc => b.isNameChar_of_mem hc
      · decide
      · decide
      · exact isNameChar_of_isIdentifier k.isIdentifier_name
      · decide
      · have htail : 'f' ∉ k.tail := k.not_mem_tail (by decide) (by decide)
        simp [htail]
  exists_concat k :=
    ⟨k.lead ++ '\'' :: b.target ++ separator :: k.name ++ '\'' :: k.beforeEnd, by
      simp [BareCheck.qualified, BareCheck.tail]⟩
  newline_not_mem k := by
    have hlead : '\n' ∉ k.lead := k.not_mem_lead (by decide) (by decide)
    have hname : '\n' ∉ k.name := k.not_mem_name (by decide)
    have htail : '\n' ∉ k.tail := k.not_mem_tail (by decide) (by decide)
    simp [BareCheck.qualified, hlead, hname, htail, b.newline_not_mem_target, separator]

namespace WritesCalls

variable {write : BareCheck → List Char}

theorem calls (hw : WritesCalls write) (k : BareCheck) (after : List Char) :
    Calls (write k ++ after) := by
  obtain ⟨rest, hwrite⟩ := hw.isPrefix_lead k
  rw [← hwrite, BareCheck.lead]
  cases hgap : k.beforeBracket with
  | nil => exact ⟨'(', k.afterBracket ++ (rest ++ after), by simp, Or.inr rfl⟩
  | cons c gap =>
    refine ⟨c, gap ++ '(' :: k.afterBracket ++ (rest ++ after), by simp, Or.inl ?_⟩
    exact k.blanks_beforeBracket c (by simp [hgap])

/-- A call begins where a piece does. -/
theorem exists_of_calls (hw : WritesCalls write) {pieces : List Piece} {before rest : List Char}
    (heq : render write pieces = before ++ rest) (hcalls : Calls rest) :
    ∃ front back, pieces = front ++ back ∧ before = render write front ∧
      rest = render write back := by
  induction pieces generalizing before with
  | nil =>
    obtain ⟨-, rfl⟩ := List.append_eq_nil_iff.1 heq.symm
    exact ⟨[], [], rfl, by simpa using heq, rfl⟩
  | cons p pieces ih =>
    cases before with
    | nil => exact ⟨[], p :: pieces, rfl, rfl, heq.symm⟩
    | cons d before =>
      rw [render_cons] at heq
      rcases List.append_eq_append_iff.1 heq with ⟨part, hbefore, hrest⟩ | ⟨part, hp, hrest⟩
      · obtain ⟨front, back, rfl, rfl, rfl⟩ := ih hrest
        exact ⟨p :: front, back, rfl, by rw [hbefore, render_cons], rfl⟩
      · cases hpart : part with
        | nil =>
          subst hpart
          refine ⟨[p], pieces, rfl, ?_, by simpa using hrest⟩
          simpa using hp.symm
        | cons e more =>
          -- the call would begin inside the piece
          exfalso
          cases p with
          | char c =>
            rw [hpart] at hp
            simp [Piece.render] at hp
          | check k =>
            obtain ⟨tail, hwrite, hfree⟩ := hw.exists_cons k
            rw [Piece.render, hwrite] at hp
            obtain ⟨-, htail⟩ := List.cons.inj hp
            refine hfree (render write pieces) before part htail (by simp [hpart]) ?_
            rwa [← hrest]

/-- A stretch of text in which no call begins comes from characters. -/
theorem exists_of_callFree (hw : WritesCalls write) {stretch after : List Char}
    (hfree : CallFree stretch after) {pieces : List Piece}
    (heq : render write pieces = stretch ++ after) :
    ∃ rest, pieces = stretch.map .char ++ rest ∧ render write rest = after := by
  induction stretch generalizing pieces with
  | nil => exact ⟨pieces, rfl, heq⟩
  | cons c stretch ih =>
    cases pieces with
    | nil => cases heq
    | cons p pieces =>
      cases p with
      | char d =>
        obtain ⟨rfl, htail⟩ := List.cons.inj heq
        obtain ⟨rest, rfl, hrest⟩ := ih hfree.tail htail
        exact ⟨rest, rfl, hrest⟩
      | check k =>
        refine absurd (hw.calls k (render write pieces)) ?_
        have hnot := hfree.not_calls (by simp)
        rwa [← heq, render_cons] at hnot

/-- Where the checks are written makes no difference to whether a word starts behind them. -/
theorem startsWord_render {write' : BareCheck → List Char} (hw : WritesCalls write)
    (hw' : WritesCalls write') (pieces : List Piece) :
    StartsWord (render write pieces) ↔ StartsWord (render write' pieces) := by
  rcases List.eq_nil_or_concat pieces with rfl | ⟨pieces, p, rfl⟩
  · rfl
  · have hlast : ∀ {write : BareCheck → List Char}, WritesCalls write →
        (render write (pieces ++ [p])).getLast? = some (match p with
          | .char c => c
          | .check _ => ')') := by
      intro write hw
      rw [render_append, render_cons, render_nil, List.append_nil]
      cases p with
      | char c => simp [Piece.render]
      | check k =>
        obtain ⟨front, hwrite⟩ := hw.exists_concat k
        rw [Piece.render, hwrite, ← List.append_assoc, List.getLast?_concat]
    rw [List.concat_eq_append, StartsWord, StartsWord, hlast hw, hlast hw']

end WritesCalls

/-- The pieces of a text that comes behind `lead`: they spell it, the checks among them stand where
a word starts, and at none of the characters a check could have been read. -/
structure Reads (pieces : List Piece) (lead text : List Char) : Prop where
  spells : render BareCheck.text pieces = text
  startsWord : ∀ front k rest, pieces = front ++ .check k :: rest →
    StartsWord (lead ++ render BareCheck.text front)
  not_prefix : ∀ front c rest, pieces = front ++ .char c :: rest →
    StartsWord (lead ++ render BareCheck.text front) →
      ∀ k : BareCheck, ¬ k.text <+: c :: render BareCheck.text rest

namespace Reads

variable {pieces : List Piece} {lead text : List Char}

theorem nil (lead : List Char) : Reads [] lead [] :=
  ⟨rfl, fun _ _ _ h => by simp at h, fun _ _ _ h => by simp at h⟩

theorem check {k : BareCheck} (hk : StartsWord lead) (h : Reads pieces (lead ++ k.text) text) :
    Reads (.check k :: pieces) lead (k.text ++ text) where
  spells := by rw [render_cons, h.spells]; rfl
  startsWord := by
    intro front k' rest heq
    cases front with
    | nil => simpa using hk
    | cons p front =>
      obtain ⟨rfl, hpieces⟩ := List.cons.inj heq
      simpa [Piece.render] using h.startsWord front k' rest hpieces
  not_prefix := by
    intro front c rest heq hstart
    cases front with
    | nil => cases heq
    | cons p front =>
      obtain ⟨rfl, hpieces⟩ := List.cons.inj heq
      exact h.not_prefix front c rest hpieces (by simpa [Piece.render] using hstart)

theorem char {c : Char} (hc : StartsWord lead → ∀ k : BareCheck, ¬ k.text <+: c :: text)
    (h : Reads pieces (lead ++ [c]) text) : Reads (.char c :: pieces) lead (c :: text) where
  spells := by rw [render_cons, h.spells]; rfl
  startsWord := by
    intro front k rest heq
    cases front with
    | nil => cases heq
    | cons p front =>
      obtain ⟨rfl, hpieces⟩ := List.cons.inj heq
      simpa [Piece.render] using h.startsWord front k rest hpieces
  not_prefix := by
    intro front d rest heq hstart
    cases front with
    | nil =>
      obtain ⟨hd, rfl⟩ := List.cons.inj heq
      obtain rfl := Piece.char.inj hd
      rw [h.spells]
      exact hc (by simpa using hstart)
    | cons p front =>
      obtain ⟨rfl, hpieces⟩ := List.cons.inj heq
      exact h.not_prefix front d rest hpieces (by simpa [Piece.render] using hstart)

/-- The checks that stand in a text are those among its pieces. -/
theorem standsIn_iff (h : Reads pieces [] text) {k : BareCheck} {before : List Char} :
    k.StandsIn text before ↔ ∃ front rest, pieces = front ++ .check k :: rest ∧
      before = render BareCheck.text front := by
  constructor
  · rintro ⟨hstart, after, htext⟩
    rw [← h.spells, List.append_assoc] at htext
    obtain ⟨front, back, rfl, rfl, hback⟩ :=
      writesCalls_text.exists_of_calls htext (writesCalls_text.calls k after)
    obtain ⟨tail, hk, -⟩ := writesCalls_text.exists_cons k
    cases back with
    | nil => simp [hk] at hback
    | cons p back =>
      cases p with
      | check k' =>
        obtain ⟨rfl, -⟩ := BareCheck.text_append_inj hback
        exact ⟨front, back, rfl, rfl⟩
      | char d =>
        refine absurd ?_ (h.not_prefix front d back rfl (by simpa using hstart) k)
        exact ⟨after, hback⟩
  · rintro ⟨front, rest, rfl, rfl⟩
    refine ⟨by simpa using h.startsWord front k rest rfl, render BareCheck.text rest, ?_⟩
    rw [← h.spells, render_append, render_cons, Piece.render, List.append_assoc]

/-- A qualified check is no check on a bare name. -/
theorem qualified_append_ne (b : Brand) (k k' : BareCheck) (rest rest' : List Char) :
    k.text ++ rest ≠ k'.qualified b.target ++ rest' := by
  intro h
  have hname : isIdentifier b.name.toList = true := b.identifier
  have htext : k.text ++ rest = ExistenceCheck.callee ++ (k.beforeBracket ++ '(' ::
      (k.afterBracket ++ k.quote :: (k.name ++ k.quote :: (k.tail ++ rest)))) := by
    simp [BareCheck.text, BareCheck.lead]
  have hqualified : k'.qualified b.target ++ rest' = ExistenceCheck.callee ++
      (k'.beforeBracket ++ '(' :: (k'.afterBracket ++ '\'' :: (b.name.toList ++ separator ::
        (placeholder ++ separator :: k'.name ++ '\'' :: k'.tail ++ rest')))) := by
    simp [BareCheck.qualified, BareCheck.lead, Brand.target]
  rw [htext, hqualified] at h
  obtain ⟨-, -, h⟩ := append_cons_inj_of_run k.blanks_beforeBracket k'.blanks_beforeBracket
    (by decide) (by decide) (List.append_cancel_left h)
  obtain ⟨-, -, h⟩ := append_cons_inj_of_run k.blanks_afterBracket k'.blanks_afterBracket
    k.quote_not_isBlank (by decide) h
  obtain ⟨-, hquote, -⟩ := append_cons_inj_of_run
    (isNameChar_of_isIdentifier k.isIdentifier_name) (isNameChar_of_isIdentifier hname)
    k.quote_not_isNameChar (by decide) h
  rcases k.isQuote with h | h <;> rw [h] at hquote <;> exact absurd hquote (by decide)

/-- Once the checks of a text are qualified, no check on a bare name is left. -/
theorem not_standsIn_qualified (h : Reads pieces [] text) (b : Brand) (k : BareCheck)
    (before : List Char) :
    ¬ k.StandsIn (render (BareCheck.qualified b.target) pieces) before := by
  rintro ⟨hstart, after, htext⟩
  have hw := writesCalls_qualified b
  rw [List.append_assoc] at htext
  obtain ⟨front, back, rfl, rfl, hback⟩ :=
    hw.exists_of_calls htext (writesCalls_text.calls k after)
  obtain ⟨tail, hk, hfree⟩ := writesCalls_text.exists_cons k
  cases back with
  | nil => simp [hk] at hback
  | cons p back =>
    cases p with
    | check k' =>
      rw [render_cons] at hback
      exact qualified_append_ne b k k' after _ hback
    | char d =>
      -- the check would be made of characters only, and so have been one before
      rw [hk] at hback
      obtain ⟨rfl, hrest⟩ := List.cons.inj hback
      obtain ⟨rest, rfl, -⟩ := hw.exists_of_callFree (hfree after) hrest.symm
      rw [hw.startsWord_render writesCalls_text] at hstart
      refine h.not_prefix front _ _ rfl (by simpa using hstart) k ?_
      rw [render_append, render_map_char, hk]
      exact ⟨_, rfl⟩

end Reads

/-! ### Qualifying the checks of a text -/

theorem qualifyChecksFrom_skip (target : List Char) (previous : Option Char) (u v : List Char) :
    qualifyChecksFrom target previous u.length (u ++ v) =
      qualifyChecksFrom target (u.getLast?.or previous) 0 v := by
  induction u generalizing previous with
  | nil => rfl
  | cons c u ih =>
    rw [List.length_cons, List.cons_append, qualifyChecksFrom, ih, List.getLast?_cons]
    cases u.getLast? <;> rfl

/-- A check is qualified, where a word starts. -/
theorem qualifyChecksFrom_text (target : List Char) (k : BareCheck) {previous : Option Char}
    (hprevious : previous.any isWord = false) (rest : List Char) :
    qualifyChecksFrom target previous 0 (k.text ++ rest) =
      k.qualified target ++ qualifyChecksFrom target k.text.getLast? 0 rest := by
  obtain ⟨tail, hk, -⟩ := writesCalls_text.exists_cons k
  have hread := read?_text_append k rest
  rw [hk, List.cons_append] at hread
  have hskip : (tail ++ rest).length - rest.length = tail.length := by simp
  rw [hk, List.cons_append, qualifyChecksFrom, hprevious, if_neg (by simp), hread]
  dsimp only
  rw [hskip, qualifyChecksFrom_skip, List.getLast?_cons]
  congr 2
  cases tail.getLast? <;> rfl

/-- A character is kept, where no check is read. -/
theorem qualifyChecksFrom_cons (target : List Char) {c : Char} {previous : Option Char}
    {text : List Char}
    (hc : previous.any isWord = false → ∀ k : BareCheck, ¬ k.text <+: c :: text) :
    qualifyChecksFrom target previous 0 (c :: text) =
      c :: qualifyChecksFrom target (some c) 0 text := by
  have hnone :
      (if previous.any isWord then none else ExistenceCheck.read? (c :: text)) = none := by
    split
    next => rfl
    next hprevious =>
      rw [Option.eq_none_iff_forall_ne_some]
      intro check hcheck
      obtain ⟨k, rest, htext, -⟩ := exists_of_read? hcheck
      exact hc (Bool.eq_false_iff.2 hprevious) k ⟨rest, htext.symm⟩
  rw [qualifyChecksFrom, hnone]

theorem startsWord_iff {before : List Char} :
    StartsWord before ↔ before.getLast?.any isWord = false := by
  rw [StartsWord]
  cases before.getLast? with
  | none => simp
  | some c => simp

/-- Every text has pieces, behind whatever it comes, and qualifying its checks writes the checks
among them otherwise. -/
theorem exists_readsFrom (lead text : List Char) :
    ∃ pieces, Reads pieces lead text ∧ ∀ target : List Char,
      qualifyChecksFrom target lead.getLast? 0 text =
        render (BareCheck.qualified target) pieces := by
  induction hlength : text.length using Nat.strong_induction_on generalizing lead text with
  | _ n ih =>
    subst hlength
    by_cases hcheck : StartsWord lead ∧ ∃ k : BareCheck, k.text <+: text
    · obtain ⟨hstart, k, rest, rfl⟩ := hcheck
      obtain ⟨tail, hk, -⟩ := writesCalls_text.exists_cons k
      have hshorter : rest.length < (k.text ++ rest).length := by
        rw [hk, List.length_append, List.length_cons]
        omega
      obtain ⟨pieces, hreads, hqualify⟩ := ih rest.length hshorter (lead ++ k.text) rest rfl
      refine ⟨.check k :: pieces, hreads.check hstart, fun target => ?_⟩
      rw [List.getLast?_append_of_ne_nil _ (by simp [hk])] at hqualify
      rw [qualifyChecksFrom_text target k (startsWord_iff.1 hstart), hqualify, render_cons]
      rfl
    · rw [not_and, not_exists] at hcheck
      cases text with
      | nil => exact ⟨[], .nil lead, fun _ => rfl⟩
      | cons c text =>
        obtain ⟨pieces, hreads, hqualify⟩ := ih text.length (by simp) (lead ++ [c]) text rfl
        refine ⟨.char c :: pieces, hreads.char hcheck, fun target => ?_⟩
        rw [List.getLast?_concat] at hqualify
        rw [qualifyChecksFrom_cons target fun h => hcheck (startsWord_iff.2 h), hqualify,
          render_cons]
        rfl

theorem exists_reads (text : List Char) :
    ∃ pieces, Reads pieces [] text ∧ ∀ target : List Char,
      qualifyChecks target text = render (BareCheck.qualified target) pieces :=
  exists_readsFrom [] text

end Branding
