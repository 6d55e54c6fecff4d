import Branding.Proofs.Source.Insertion
import Branding.Proofs.Source.Passes

/-!
# Branding is an insertion, at points that no brand moves

Which occurrences are claimed is settled before the target is known. So branding, by whatever
shapes, puts the brand in at points of the text that are the same for every brand, each of a fixed
kind, and touches nothing else. Here no text is left out but those with NUL characters: where two
occurrences are glued together by separators, the points are still there, though they can no longer
be read off the text around each occurrence.

What can be read off it is that no point lies in a longer name. Every mark was made by a shape that
recognised its occurrence, and each shape wants a blank, a separator or a quote right before the
placeholder and a blank, a separator or the end of a declaration right after it.

## Main definitions

* `insertAt` — a text with something put in at points
* `pointsFrom` — the places of the marks among cells
* `Made` — every mark was made by a shape that recognised it
* `InsertionPoints` — points in ascending order at which the placeholder stands by itself

## Main results

* `Brand.expand_eq_insertFrom` — expansion is insertion at the marks
* `exists_insertionPoints` — branding is insertion at points that are the same for every brand
-/

namespace Branding

/-! ### Insertion at points -/

/-- A text that begins at the given place, with something put in at points. -/
def insertFrom (front : Mark → List Char) :
    (place : Nat) → (points : List (Nat × Mark)) → (text : List Char) → List Char
  | _, [], text => text
  | place, (point, m) :: points, text =>
    text.take (point - place) ++ front m ++
      insertFrom front point points (text.drop (point - place))

/-- A text with something put in at points, each given by the number of characters before it and
the kind of what is put in. -/
def insertAt (front : Mark → List Char) (points : List (Nat × Mark)) (text : List Char) :
    List Char :=
  insertFrom front 0 points text

/-- What stands before all points stays in front. -/
theorem insertFrom_append (front : Mark → List Char) {place : Nat} {points : List (Nat × Mark)}
    {u : List Char} (h : ∀ p ∈ points, place + u.length ≤ p.1) (v : List Char) :
    insertFrom front place points (u ++ v) =
      u ++ insertFrom front (place + u.length) points v := by
  cases points with
  | nil => rfl
  | cons p points =>
    obtain ⟨point, m⟩ := p
    have hpoint : place + u.length ≤ point := h (point, m) (by simp)
    have hlength : u.length ≤ point - place := by omega
    have hrest : point - place - u.length = point - (place + u.length) := by omega
    rw [insertFrom, insertFrom, List.take_append, List.drop_append, List.take_of_length_le hlength,
      List.drop_of_length_le hlength, hrest]
    simp

/-! ### The points of marks -/

/-- The places of the marks among cells, in the text that these spell. -/
def pointsFrom : (place : Nat) → List Cell → List (Nat × Mark)
  | _, [] => []
  | place, .mark m :: cells => (place, m) :: pointsFrom (place + placeholder.length) cells
  | place, c :: cells => pointsFrom (place + (c.expand placeholder).length) cells

theorem pointsFrom_cons {c : Cell} (hc : ∀ m, c ≠ .mark m) (place : Nat) (cells : List Cell) :
    pointsFrom place (c :: cells) = pointsFrom (place + (c.expand placeholder).length) cells := by
  cases c with
  | mark m => exact absurd rfl (hc m)
  | char a | name => rfl

/-- A point is where a mark is. -/
theorem mem_pointsFrom {place point : Nat} {m : Mark} {cells : List Cell} :
    (point, m) ∈ pointsFrom place cells ↔ ∃ front rest, cells = front ++ .mark m :: rest ∧
      point = place + (expand placeholder front).length := by
  induction cells generalizing place with
  | nil => simp [pointsFrom]
  | cons c cells ih =>
    have hlater : (∃ front rest, c :: cells = front ++ .mark m :: rest ∧
        point = place + (expand placeholder front).length) ↔
        (c = .mark m ∧ point = place) ∨ ∃ front rest, cells = front ++ .mark m :: rest ∧
          point = place + (c.expand placeholder).length + (expand placeholder front).length := by
      constructor
      · rintro ⟨front, rest, hcells, rfl⟩
        cases front with
        | nil => exact Or.inl ⟨(List.cons.inj hcells).1, rfl⟩
        | cons d front =>
          obtain ⟨rfl, rfl⟩ := List.cons.inj hcells
          exact Or.inr ⟨front, rest, rfl, by simp [Nat.add_assoc]⟩
      · rintro (⟨rfl, rfl⟩ | ⟨front, rest, rfl, rfl⟩)
        · exact ⟨[], cells, rfl, rfl⟩
        · exact ⟨c :: front, rest, rfl, by simp [Nat.add_assoc]⟩
    rw [hlater]
    by_cases hc : ∃ n, c = .mark n
    · obtain ⟨n, rfl⟩ := hc
      rw [pointsFrom, List.mem_cons, ih, Cell.expand_mark_placeholder, Prod.mk.injEq,
        Cell.mark.injEq]
      exact or_congr_left ⟨fun h => ⟨h.2.symm, h.1⟩, fun h => ⟨h.2, h.1.symm⟩⟩
    · rw [pointsFrom_cons (not_exists.1 hc), ih]
      refine (or_iff_right ?_).symm
      rintro ⟨rfl, -⟩
      exact hc ⟨m, rfl⟩

theorem pointsFrom_eq_nil_iff {place : Nat} {cells : List Cell} :
    pointsFrom place cells = [] ↔ ∀ m, .mark m ∉ cells := by
  rw [List.eq_nil_iff_forall_not_mem]
  constructor
  · intro h m hm
    obtain ⟨front, rest, hsplit⟩ := List.append_of_mem hm
    exact h _ (mem_pointsFrom.2 ⟨front, rest, hsplit, rfl⟩)
  · rintro h ⟨point, m⟩ hp
    obtain ⟨front, rest, hsplit, -⟩ := mem_pointsFrom.1 hp
    exact h m (hsplit ▸ by simp)

theorem le_of_mem_pointsFrom {place : Nat} {p : Nat × Mark} {cells : List Cell}
    (h : p ∈ pointsFrom place cells) : place ≤ p.1 := by
  obtain ⟨front, rest, -, hpoint⟩ := mem_pointsFrom.1 h
  omega

theorem pairwise_pointsFrom (place : Nat) (cells : List Cell) :
    (pointsFrom place cells).Pairwise (·.1 < ·.1) := by
  induction cells generalizing place with
  | nil => exact .nil
  | cons c cells ih =>
    cases c with
    | mark m =>
      refine .cons (fun p hp => ?_) (ih _)
      have hplace := le_of_mem_pointsFrom hp
      rw [placeholder] at hplace
      exact Nat.lt_of_lt_of_le (by simp) hplace
    | char a | name => exact ih _

namespace Brand

variable (b : Brand)

/-- Expansion is insertion: what cells stand for is the text they spell, with the brand put in at
the marks. -/
theorem expand_eq_insertFrom (place : Nat) (cells : List Cell) :
    expand b.target cells =
      insertFrom b.inFront place (pointsFrom place cells) (expand placeholder cells) := by
  induction cells generalizing place with
  | nil => rfl
  | cons c cells ih =>
    have hrest : insertFrom b.inFront place
          (pointsFrom (place + (c.expand placeholder).length) cells)
          (expand placeholder (c :: cells)) =
        c.expand placeholder ++ expand b.target cells := by
      rw [expand_cons, insertFrom_append b.inFront fun p hp => le_of_mem_pointsFrom hp, ← ih]
    cases c with
    | mark m =>
      have hlength : placeholder.length = ((Cell.mark m).expand placeholder).length := by
        rw [Cell.expand_mark_placeholder]
      rw [pointsFrom, insertFrom, Nat.sub_self, List.take_zero, List.drop_zero, hlength, hrest,
        expand_cons, b.expand_mark, Cell.expand_mark_placeholder]
      simp
    | char a | name =>
      rw [pointsFrom_cons (by simp), hrest]
      rfl

theorem inFront_ne_nil (m : Mark) : b.inFront m ≠ [] := by
  cases m <;> simp [inFront]

/-- A text grows by a character at least for each of its points. -/
theorem length_add_length_pointsFrom_le (place : Nat) (cells : List Cell) :
    (expand placeholder cells).length + (pointsFrom place cells).length ≤
      (expand b.target cells).length := by
  induction cells generalizing place with
  | nil => exact Nat.le_refl _
  | cons c cells ih =>
    cases c with
    | mark m =>
      have hfront : 0 < (b.inFront m).length := List.length_pos_iff.2 (b.inFront_ne_nil m)
      have hrest := ih (place + placeholder.length)
      rw [expand_cons, expand_cons, pointsFrom, b.expand_mark, Cell.expand_mark_placeholder]
      simp only [List.length_append, List.length_cons]
      omega
    | char a | name =>
      rw [expand_cons, expand_cons, pointsFrom_cons (by simp), List.length_append,
        List.length_append, Nat.add_assoc]
      exact Nat.add_le_add_left (ih _) _

theorem pointsFrom_eq_nil_of_length_le {place : Nat} {cells : List Cell}
    (h : (expand b.target cells).length ≤ (expand placeholder cells).length) :
    pointsFrom place cells = [] := by
  have hgrowth := b.length_add_length_pointsFrom_le place cells
  exact List.length_eq_zero_iff.1 (by omega)

/-- A text is as it was where nothing is put in, and only there. -/
theorem expand_eq_iff (place : Nat) (cells : List Cell) :
    expand b.target cells = expand placeholder cells ↔ pointsFrom place cells = [] := by
  refine ⟨fun h => b.pointsFrom_eq_nil_of_length_le (Nat.le_of_eq (congrArg List.length h)),
    fun h => ?_⟩
  rw [b.expand_eq_insertFrom place, h]
  rfl

end Brand

/-! ### How marks are made -/

/-- Every mark was made by one of the shapes, which recognised an occurrence in the text around. -/
def Made (shapes : List Shape) (cells : List Cell) : Prop :=
  ∀ front m rest, cells = front ++ .mark m :: rest → ∃ s ∈ shapes, s.mark = m ∧
    ∃ before after, s.recognises before after = true ∧
      spellBack before = (expand placeholder front).reverse ∧
        expand placeholder after = expand placeholder rest

theorem made_nameCells (text : List Char) : Made [] (nameCells text) := by
  intro front m rest h
  exact absurd (h ▸ by simp) (mark_not_mem_nameCells m text)

theorem Made.stage {done : List Shape} {cells : List Cell} (h : Made done cells) (s : Shape) :
    Made (done ++ [s]) (s.stage cells) := by
  intro front m rest heq
  obtain ⟨front', c, rest', rfl, hfront, hrest, hd⟩ := s.stageFrom_split heq
  rw [hfront.expand_eq, hrest.expand_eq]
  split at hd
  next hc =>
    obtain rfl := Cell.mark.inj hd
    refine ⟨s, by simp, rfl, _, rest', hc.2, ?_, rfl⟩
    rw [List.append_nil, spellBack, List.reverse_reverse]
  next =>
    subst hd
    obtain ⟨s', hs', hmade⟩ := h front' m rest' rfl
    exact ⟨s', by simp [hs'], hmade⟩

theorem Made.stageAll {done : List Shape} {cells : List Cell} (h : Made done cells)
    (todo : List Shape) : Made (done ++ todo) (stageAll todo cells) := by
  induction todo generalizing done cells with
  | nil => rwa [List.append_nil]
  | cons s todo ih =>
    have hrest := ih (h.stage s)
    rwa [List.append_assoc, List.singleton_append] at hrest

namespace Shape

variable {s : Shape} {before after : List Cell}

/-- What may stand right after a reference. -/
def trails : List Char := [' ', '\t', ';', '\x7b', '\\']

theorem mem_trails_of_isBlank {c : Char} (h : isBlank c = true) : c ∈ trails := by
  rw [isBlank, Bool.or_eq_true, beq_iff_eq, beq_iff_eq] at h
  rcases h with rfl | rfl <;> decide

/-- What may stand right before a reference: a blank or a separator, or the quote of a literal. -/
def leadsOf : Shape → List Char
  | .loaderLiteral => ['\'']
  | _ => [' ', '\t', '\\']

theorem exists_lead_of_recognises (h : s.recognises before after = true) :
    ∃ c rest, spellBack before = c :: rest ∧ c ∈ s.leadsOf := by
  have hlead := leads_of_recognises h
  cases s with
  | declaration | importation =>
    obtain ⟨⟨c, rest, hback, hc⟩, -⟩ := hlead
    refine ⟨c, rest, hback, ?_⟩
    rw [isBlank, Bool.or_eq_true, beq_iff_eq, beq_iff_eq] at hc
    rcases hc with rfl | rfl <;> decide
  | qualified | documented =>
    obtain ⟨rest, hback, -⟩ := hlead
    exact ⟨_, rest, hback, by decide⟩
  | escaped =>
    obtain ⟨rest, hback⟩ := hlead
    exact ⟨_, _, hback, by decide⟩
  | loaderLiteral =>
    obtain ⟨rest, hback⟩ := hlead
    exact ⟨_, rest, hback, by decide⟩

/-- Right after a reference there is a separator, unless it is a declaration. -/
theorem exists_separator_of_recognises (hs : s ≠ .declaration)
    (h : s.recognises before after = true) : ∃ rest, after = .char separator :: rest := by
  cases s with
  | declaration => exact absurd rfl hs
  | importation =>
    rw [recognises, recognisesImportation, Bool.and_eq_true] at h
    exact List.head?_eq_some_iff.1 (beq_iff_eq.1 h.2)
  | qualified =>
    obtain ⟨-, a, -, rfl, -⟩ := recognisesQualified_iff.1 h
    exact ⟨a, rfl⟩
  | documented =>
    obtain ⟨-, a, -, rfl, -⟩ := recognisesDocumented_iff.1 h
    exact ⟨a, rfl⟩
  | escaped =>
    obtain ⟨-, a, -, rfl, -⟩ := recognisesEscaped_iff.1 h
    exact ⟨.char separator :: a, rfl⟩
  | loaderLiteral =>
    obtain ⟨-, a, -, rfl, -⟩ := recognisesLoaderLiteral_iff.1 h
    exact ⟨_, rfl⟩

theorem exists_trail_of_recognises (h : s.recognises before after = true) :
    ∃ c rest, expand placeholder after = c :: rest ∧ c ∈ trails := by
  by_cases hs : s = .declaration
  · subst hs
    obtain ⟨-, c, rest, hrest, hc⟩ := recognisesDeclaration_iff.1 h
    cases after with
    | nil => cases hrest
    | cons d after =>
      rw [List.dropWhile_cons] at hrest
      split at hrest
      next hd =>
        cases d with
        | char a => exact ⟨a, _, rfl, mem_trails_of_isBlank hd⟩
        | name | mark m => cases hd
      next =>
        obtain ⟨rfl, -⟩ := List.cons.inj hrest
        exact ⟨c, _, rfl, by rcases hc with rfl | rfl | rfl <;> decide⟩
  · obtain ⟨rest, rfl⟩ := exists_separator_of_recognises hs h
    exact ⟨separator, _, rfl, by decide⟩

end Shape

/-! ### Points of branding -/

/-- The placeholder stands at a place in a text, one of the given characters right before it and
what may follow a reference right after it. -/
def StandsAt (leads : List Char) (text : List Char) (place : Nat) : Prop :=
  ∃ front c d rest, text = front ++ [c] ++ placeholder ++ d :: rest ∧
    place = (front ++ [c]).length ∧ c ∈ leads ∧ d ∈ Shape.trails

/-- Points in ascending order, at each of which the placeholder stands by itself. -/
structure InsertionPoints (leads : List Char) (text : List Char)
    (points : List (Nat × Mark)) : Prop where
  ascending : points.Pairwise (·.1 < ·.1)
  standsAt : ∀ p ∈ points, StandsAt leads text p.1

theorem insertionPoints_pointsFrom {shapes : List Shape} {leads : List Char} {cells : List Cell}
    (hmade : Made shapes cells) (hleads : ∀ s ∈ shapes, s.leadsOf ⊆ leads) :
    InsertionPoints leads (expand placeholder cells) (pointsFrom 0 cells) := by
  refine ⟨pairwise_pointsFrom 0 cells, ?_⟩
  rintro ⟨point, m⟩ hp
  obtain ⟨front, rest, rfl, hpoint⟩ := mem_pointsFrom.1 hp
  obtain ⟨s, hs, -, before, after, hrec, hbefore, hafter⟩ := hmade front m rest rfl
  obtain ⟨c, back, hback, hc⟩ := Shape.exists_lead_of_recognises hrec
  obtain ⟨d, tail, htail, hd⟩ := Shape.exists_trail_of_recognises hrec
  have hfront : expand placeholder front = back.reverse ++ [c] := by
    rw [← List.reverse_reverse (expand placeholder front), ← hbefore, hback, List.reverse_cons]
  refine ⟨back.reverse, c, d, tail, ?_, ?_, hleads s hs hc, hd⟩
  · rw [expand_append, expand_cons, Cell.expand_mark_placeholder, hfront, ← hafter, htail]
    simp
  · rw [hpoint, hfront, Nat.zero_add]

/-- Branding by shapes is insertion at points that are the same for every brand. -/
theorem exists_insertionPoints_of_shapes {shapes : List Shape} {leads : List Char}
    (hleads : ∀ s ∈ shapes, s.leadsOf ⊆ leads) {text : List Char} (hnul : '\x00' ∉ text) :
    ∃ points, InsertionPoints leads text points ∧
      ∀ b : Brand, brandShapes shapes b.target text = insertAt b.inFront points text ∧
        (brandShapes shapes b.target text = text ↔ points = []) := by
  have htext : expand placeholder (stageAll shapes (nameCells text)) = text := by
    rw [(claimed_stageAll shapes (nameCells text)).expand_eq, expand_nameCells]
  have hpoints := insertionPoints_pointsFrom ((made_nameCells text).stageAll shapes) hleads
  rw [htext] at hpoints
  refine ⟨pointsFrom 0 (stageAll shapes (nameCells text)), hpoints, fun b => ?_⟩
  have hinsert := b.expand_eq_insertFrom 0 (stageAll shapes (nameCells text))
  have hsame := b.expand_eq_iff 0 (stageAll shapes (nameCells text))
  rw [htext] at hinsert hsame
  rw [brandShapes, cells_eq_nameCells hnul]
  exact ⟨hinsert, hsame⟩

/-- Branding puts the brand and one or two separators in at points of the text and changes nothing
else. The points do not depend on the brand, so neither does whether anything changes, and at each
the placeholder stands by itself: what stands right before and after it belongs to no name. -/
theorem exists_insertionPoints {text : List Char} (hnul : '\x00' ∉ text) :
    (∃ points, InsertionPoints [' ', '\t', '\\'] text points ∧
      ∀ b : Brand, brandModule b text = insertAt b.inFront points text ∧
        (brandModule b text = text ↔ points = [])) ∧
      ∃ points, InsertionPoints [' ', '\t', '\\', '\''] text points ∧
        ∀ b : Brand, brandLoader b text = insertAt b.inFront points text ∧
          (brandLoader b text = text ↔ points = []) :=
  ⟨exists_insertionPoints_of_shapes (by decide) hnul,
    exists_insertionPoints_of_shapes (by decide) hnul⟩

/-- Two occurrences glued together, and a literal that only a loader has. -/
theorem exists_insertionPoints_glued :
    '\x00' ∉ "namespace WPLite\\WPLite\\A;\n$prefix = 'WPLite\\\\';".toList ∧
      (∃ points, points ≠ [] ∧
        InsertionPoints [' ', '\t', '\\']
          "namespace WPLite\\WPLite\\A;\n$prefix = 'WPLite\\\\';".toList points) ∧
        ∃ points, points ≠ [] ∧
          InsertionPoints [' ', '\t', '\\', '\'']
            "namespace WPLite\\WPLite\\A;\n$prefix = 'WPLite\\\\';".toList points := by
  have hnul : '\x00' ∉ "namespace WPLite\\WPLite\\A;\n$prefix = 'WPLite\\\\';".toList := by
    decide
  obtain ⟨⟨points, hpoints, hmodule⟩, points', hpoints', hloader⟩ := exists_insertionPoints hnul
  refine ⟨hnul, ⟨points, ?_, hpoints⟩, points', ?_, hpoints'⟩
  · intro hnone
    exact absurd ((hmodule ⟨"Acme", by decide⟩).2.2 hnone) (by decide)
  · intro hnone
    exact absurd ((hloader ⟨"Acme", by decide⟩).2.2 hnone) (by decide)

end Branding
