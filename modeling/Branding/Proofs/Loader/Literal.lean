import Branding.Brand
import Mathlib.Data.List.Infix

/-!
# What a quoted literal denotes

Between single quotes all characters but two stand for themselves. A quote ends the literal. A
backslash takes the character behind it out of this rule where that is a quote or another backslash,
and stands for itself before anything else.

So a text that is put between quotes with every backslash doubled denotes itself, as long as no
quote is in it. A text that is put there as it is does so only where no two backslashes meet, and
where the last one does not run into the closing quote.

## Main definitions

* `readLiteral?` — what a literal denotes, and the text behind it

## Main results

* `readLiteral?_doubleSeparators` — doubled backslashes denote single ones
* `readLiteral?_append_eq_some_iff` — the texts that denote themselves
-/

namespace Branding

/-- What a single-quoted literal denotes, read from behind its opening quote, and the text behind
its closing quote. -/
def readLiteral? : List Char → Option (List Char × List Char)
  | [] => none
  | '\'' :: rest => some ([], rest)
  | '\\' :: '\'' :: rest => (readLiteral? rest).map (Prod.map ('\'' :: ·) id)
  | '\\' :: '\\' :: rest => (readLiteral? rest).map (Prod.map ('\\' :: ·) id)
  | c :: rest => (readLiteral? rest).map (Prod.map (c :: ·) id)

/-- A quote or a backslash, which a backslash before it takes as it is. -/
def isEscapable (c : Char) : Bool := c == '\'' || c == '\\'

theorem readLiteral?_escaped {c : Char} (hc : isEscapable c = true) (rest : List Char) :
    readLiteral? ('\\' :: c :: rest) = (readLiteral? rest).map (Prod.map (c :: ·) id) := by
  rw [isEscapable, Bool.or_eq_true, beq_iff_eq, beq_iff_eq] at hc
  rcases hc with rfl | rfl <;> rfl

/-- Any other character stands for itself. -/
theorem readLiteral?_cons {c : Char} {rest : List Char} (hquote : c ≠ '\'')
    (hescape : c = '\\' → ∀ d ∈ rest.head?, isEscapable d = false) :
    readLiteral? (c :: rest) = (readLiteral? rest).map (Prod.map (c :: ·) id) := by
  rw [readLiteral?.eq_def]
  split
  next heq => cases heq
  next heq => exact absurd (List.cons.inj heq).1 hquote
  next heq =>
    obtain ⟨rfl, rfl⟩ := List.cons.inj heq
    exact absurd (hescape rfl _ rfl) (by decide)
  next heq =>
    obtain ⟨rfl, rfl⟩ := List.cons.inj heq
    exact absurd (hescape rfl _ rfl) (by decide)
  next heq =>
    obtain ⟨rfl, rfl⟩ := List.cons.inj heq
    rfl

theorem map_cons_eq_some_iff {c : Char} {read : Option (List Char × List Char)}
    {value rest : List Char} : read.map (Prod.map (c :: ·) id) = some (value, rest) ↔
      ∃ value', read = some (value', rest) ∧ value = c :: value' := by
  rw [Option.map_eq_some_iff]
  constructor
  · rintro ⟨⟨value', rest'⟩, hread, heq⟩
    cases heq
    exact ⟨value', hread, rfl⟩
  · rintro ⟨value', hread, rfl⟩
    exact ⟨_, hread, rfl⟩

/-- A literal is longer than what it denotes. -/
theorem length_lt_of_readLiteral? {text value rest : List Char}
    (h : readLiteral? text = some (value, rest)) : value.length + rest.length < text.length := by
  induction text using readLiteral?.induct generalizing value with
  | case1 => cases h
  | case2 tail =>
    cases h
    simp
  | case3 tail ih | case4 tail ih =>
    obtain ⟨value', htail, rfl⟩ := map_cons_eq_some_iff.1 h
    have hshorter := ih htail
    simp only [List.length_cons]
    omega
  | case5 c tail hquote hescaped hbackslash ih =>
    rw [readLiteral?] at h
    · obtain ⟨value', htail, rfl⟩ := map_cons_eq_some_iff.1 h
      have hshorter := ih htail
      simp only [List.length_cons]
      omega
    all_goals assumption

/-- A text without quotes whose backslashes are doubled denotes itself. -/
theorem readLiteral?_doubleSeparators {text : List Char} (h : '\'' ∉ text) (rest : List Char) :
    readLiteral? (doubleSeparators text ++ '\'' :: rest) = some (text, rest) := by
  induction text with
  | nil => rfl
  | cons c text ih =>
    rw [List.mem_cons, not_or] at h
    rw [← List.singleton_append, doubleSeparators_append, List.append_assoc]
    by_cases hc : c = separator
    · subst hc
      have htwo : doubleSeparators [separator] = ['\\', '\\'] := rfl
      rw [htwo, List.cons_append, List.singleton_append, readLiteral?_escaped (by decide), ih h.2]
      rfl
    · have hone : doubleSeparators [c] = [c] := by simp [doubleSeparators, hc]
      rw [hone, List.singleton_append, readLiteral?_cons (Ne.symm h.1) (absurd · hc), ih h.2]
      rfl

/-- Whether the backslash in front of a text would take a character of it, or the quote behind
it. -/
theorem head?_append_isEscapable_iff {text rest : List Char} :
    (∃ d ∈ (text ++ '\'' :: rest).head?, isEscapable d = true) ↔
      text = [] ∨ ∃ d more, text = d :: more ∧ (d = '\'' ∨ d = '\\') := by
  cases text with
  | nil => simp [isEscapable]
  | cons d more => simp [isEscapable]

/-- A text that is put between quotes as it is denotes itself where no quote is in it, no two
backslashes meet, and none is the last character. -/
theorem readLiteral?_append_eq_some_iff {text rest : List Char} :
    readLiteral? (text ++ '\'' :: rest) = some (text, rest) ↔
      '\'' ∉ text ∧ ¬['\\', '\\'] <:+: text ∧ text.getLast? ≠ some '\\' := by
  induction text with
  | nil => simp [readLiteral?]
  | cons c text ih =>
    rw [List.cons_append]
    by_cases hquote : c = '\''
    · subst hquote
      simp [readLiteral?]
    by_cases hescape : c = '\\' ∧ ∃ d ∈ (text ++ '\'' :: rest).head?, isEscapable d = true
    · obtain ⟨rfl, hnext⟩ := hescape
      refine iff_of_false (fun hread => ?_) ?_
      -- the two characters denote one, and the rest is too short for what is left
      · obtain ⟨d, hd, hescapable⟩ := hnext
        obtain ⟨more, hmore⟩ := List.head?_eq_some_iff.1 hd
        rw [hmore, readLiteral?_escaped hescapable] at hread
        obtain ⟨value, hvalue, heq⟩ := map_cons_eq_some_iff.1 hread
        obtain ⟨-, rfl⟩ := List.cons.inj heq
        have hshorter := length_lt_of_readLiteral? hvalue
        have hlength := congrArg List.length hmore
        simp only [List.length_append, List.length_cons] at hlength
        omega
      · rintro ⟨hmem, htwo, hlast⟩
        rcases head?_append_isEscapable_iff.1 hnext with rfl | ⟨d, more, rfl, rfl | rfl⟩
        · exact hlast rfl
        · exact hmem (by simp)
        · exact htwo (List.prefix_append ['\\', '\\'] more).isInfix
    · have hcons : c = '\\' → ∀ d ∈ (text ++ '\'' :: rest).head?, isEscapable d = false := by
        intro hc d hd
        rw [Bool.eq_false_iff]
        exact fun hescapable => hescape ⟨hc, d, hd, hescapable⟩
      have hfree : c = '\\' → text ≠ [] ∧ ¬['\\'] <+: text := by
        refine fun hc => not_or.1 fun hnext => hescape ⟨hc, head?_append_isEscapable_iff.2 ?_⟩
        refine hnext.imp_right ?_
        rintro ⟨more, rfl⟩
        exact ⟨'\\', more, rfl, Or.inr rfl⟩
      rw [readLiteral?_cons hquote hcons, map_cons_eq_some_iff]
      have hself : (∃ value, readLiteral? (text ++ '\'' :: rest) = some (value, rest) ∧
          c :: text = c :: value) ↔ readLiteral? (text ++ '\'' :: rest) = some (text, rest) := by
        simp
      rw [hself, ih, List.mem_cons, not_or, List.infix_cons_iff, not_or, List.cons_prefix_cons]
      constructor
      · rintro ⟨hmem, htwo, hlast⟩
        refine ⟨⟨Ne.symm hquote, hmem⟩, ⟨fun h => (hfree h.1.symm).2 h.2, htwo⟩, ?_⟩
        cases text with
        | nil => exact fun h => (hfree (by simpa using h)).1 rfl
        | cons d more => rwa [List.getLast?_cons_cons]
      · rintro ⟨⟨-, hmem⟩, ⟨-, htwo⟩, hlast⟩
        refine ⟨hmem, htwo, ?_⟩
        cases text with
        | nil => simp
        | cons d more => rwa [List.getLast?_cons_cons] at hlast

end Branding
