import Branding.Proofs.Source.Alike
import Branding.Proofs.Source.Passes

/-!
# Branding goes line by line

No reference reaches over the end of a line. The written form of a mark has no line end in it and
neither has the placeholder, so a text is cut into the same cells by itself and as a part of a
longer one. And a line feed before an occurrence is to every shape what the start of the text is, a
line end behind it what the end of the text is. So every pass works on each line alone, and with it
branding, whatever the text holds: written forms of marks that were there before are no exception.

A carriage return ends no line for a shape that wants a line start. That does not matter, since it
is read only as the last character of the line before.

## Main results

* `cells_append_char` — a character of no word cuts a text
* `Shape.stage_append_newline` — a pass works on each line alone
* `brand_append_lineEnd` — a text cut at a line end is branded piece by piece
-/

namespace Branding

/-! ### Cells on both sides of a character -/

/-- A word is found before a character that it does not hold, or not at all. -/
theorem afterChars?_append_char {word : List Char} {c : Char} (hc : c ∉ word)
    (u v : List Cell) :
    afterChars? word (u ++ .char c :: v) =
      (afterChars? word u).map (· ++ .char c :: v) := by
  induction word generalizing u with
  | nil => rfl
  | cons w word ih =>
    rw [List.mem_cons, not_or] at hc
    match u with
    | [] => simp [afterChars?, Ne.symm hc.1]
    | .char d :: u =>
      by_cases hd : w = d
      · simp [afterChars?, hd, ih hc.2]
      · simp [afterChars?, hd]
    | .name :: u => rfl
    | .mark m :: u => rfl

/-- A character that is not in the word cuts what the word is absorbed in. -/
theorem absorb_append_char {word : List Char} (hne : word ≠ []) (cell : Cell) {c : Char}
    (hc : c ∉ word) (u v : List Cell) :
    absorb word cell (u ++ .char c :: v) = absorb word cell u ++ .char c :: absorb word cell v := by
  induction hlength : u.length using Nat.strong_induction_on generalizing u with
  | _ n ih =>
    subst hlength
    cases u with
    | nil =>
      have hnone : afterChars? word (.char c :: v) = none := by
        have h := afterChars?_append_char hc [] v
        obtain ⟨w, word, rfl⟩ := List.exists_cons_of_ne_nil hne
        simpa [afterChars?] using h
      rw [List.nil_append, absorb_cons, hnone]
      rfl
    | cons d u =>
      rw [List.cons_append, absorb_cons, absorb_cons, ← List.cons_append,
        afterChars?_append_char hc, Option.isSome_map]
      split
      next hfound =>
        obtain ⟨rest, hrest⟩ := Option.isSome_iff_exists.1 hfound
        have hlength : word.length - 1 ≤ u.length := by
          have := congrArg List.length (afterChars?_eq_some_iff.1 hrest)
          simp only [List.length_cons, List.length_append, List.length_map] at this
          omega
        have hshorter : (u.drop (word.length - 1)).length < (d :: u).length := by
          rw [List.length_drop, List.length_cons]
          omega
        rw [List.drop_append_of_le_length hlength, List.cons_append, ih _ hshorter _ rfl]
      next => rw [List.cons_append, ih _ (by simp) u rfl]

/-- A character that is in no written form and not in the placeholder cuts a text. -/
theorem cells_append_char {c : Char} (hwritten : ∀ m : Mark, c ∉ m.written)
    (hc : c ∉ placeholder) (u v : List Char) :
    cells (u ++ c :: v) = cells u ++ .char c :: cells v := by
  rw [cells, List.map_append, List.map_cons, absorb_append_char (by decide) _ (hwritten .plain),
    absorb_append_char (by decide) _ (hwritten .doubled), absorb_append_char (by decide) _ hc]
  rfl

theorem cells_append_newline (u v : List Char) :
    cells (u ++ '\n' :: v) = cells u ++ .char '\n' :: cells v :=
  cells_append_char (by intro m; cases m <;> decide) (by decide) u v

theorem cells_append_return (u : List Char) : cells (u ++ ['\r']) = cells u ++ [.char '\r'] :=
  cells_append_char (by intro m; cases m <;> decide) (by decide) u []

/-! ### What stands beyond a line end -/

theorem afterDocTag_append_newline (before back : List Cell) :
    afterDocTag (before ++ .char '\n' :: back) = afterDocTag before := by
  induction before with
  | nil => rfl
  | cons c before ih =>
    have htags : (referenceTags.any fun tag =>
        (afterChars? (tag.reverse ++ ['@']) (before ++ .char '\n' :: back)).isSome) =
        referenceTags.any fun tag => (afterChars? (tag.reverse ++ ['@']) before).isSome := by
      rw [Bool.eq_iff_iff, List.any_eq_true, List.any_eq_true]
      refine exists_congr fun tag => and_congr_right fun htag => ?_
      have hnewline : '\n' ∉ tag.reverse ++ ['@'] := by
        simpa using Shape.newline_not_mem_referenceTag htag
      rw [afterChars?_append_char hnewline, Option.isSome_map]
    rw [List.cons_append, afterDocTag, afterDocTag, ih, htags]

namespace Shape

/-- What stands beyond a stop is not seen from behind it. -/
theorem stageFrom_of_stop (s : Shape) {back back' : List Cell} (hstop : StopBehind back back')
    (hdoc : s = .documented → ∀ before,
      afterDocTag (before ++ back) = afterDocTag (before ++ back')) (before cells : List Cell) :
    s.stageFrom (before ++ back) cells = s.stageFrom (before ++ back') cells := by
  induction cells generalizing before with
  | nil => rfl
  | cons c cells ih =>
    have hsame : s.recognises (before ++ back) cells = s.recognises (before ++ back') cells := by
      refine recognises_eq_of_alike ((Alike.stop hstop).append before)
        (.refl stopAhead_nil cells) fun hs b b' hb hb' => ?_
      cases before with
      | nil =>
        subst hb
        exact (hstop.char_cons (by decide)).elim
      | cons d before =>
        obtain ⟨-, rfl⟩ := List.cons.inj hb
        obtain ⟨-, rfl⟩ := List.cons.inj hb'
        exact hdoc hs before
    rw [stageFrom, stageFrom, hsame, ← List.cons_append, ← List.cons_append, ih]

theorem stageFrom_below_newline (s : Shape) (before back cells : List Cell) :
    s.stageFrom (before ++ .char '\n' :: back) cells = s.stageFrom before cells := by
  have hstop : StopBehind (.char '\n' :: back) [] := ⟨by simp, by simp, rfl⟩
  have hbelow := s.stageFrom_of_stop hstop
    (fun _ before => by rw [afterDocTag_append_newline, List.append_nil]) before cells
  rwa [List.append_nil] at hbelow

/-- What stands before a semicolon is not seen from behind it, but for a documentation tag. -/
theorem stageFrom_below_semicolon {s : Shape} (hs : s ≠ .documented) (back cells : List Cell) :
    s.stageFrom (.char ';' :: back) cells = s.stageFrom [.char ';'] cells := by
  have hstop : StopBehind (.char ';' :: back) [.char ';'] := ⟨by simp, by simp, rfl⟩
  exact s.stageFrom_of_stop hstop (fun h => absurd h hs) [] cells

/-- What stands behind a line end is not seen from before it. -/
theorem stageFrom_append_of_stop (s : Shape) {rest : List Cell} (hrest : StopAhead rest [])
    (before cells : List Cell) :
    s.stageFrom before (cells ++ rest) =
      s.stageFrom before cells ++ s.stageFrom (cells.reverse ++ before) rest := by
  induction cells generalizing before with
  | nil => rfl
  | cons c cells ih =>
    have halike := (Alike.stop hrest).append cells
    rw [List.append_nil] at halike
    have hsame : s.recognises before (cells ++ rest) = s.recognises before cells := by
      refine recognises_eq_of_alike (.refl stopBehind_nil before) halike ?_
      rintro - b b' hb hb'
      rw [(List.cons.inj (hb.symm.trans hb')).2]
    rw [List.cons_append, stageFrom, stageFrom, hsame, ih, List.cons_append]
    simp

/-- A pass works on the text before a line feed and on the text behind it. -/
theorem stage_append_newline (s : Shape) (u v : List Cell) :
    s.stage (u ++ .char '\n' :: v) = s.stage u ++ .char '\n' :: s.stage v := by
  have hstop : StopAhead (.char '\n' :: v) [] := ⟨by simp, by simp, rfl⟩
  have hbelow := s.stageFrom_below_newline [] u.reverse v
  rw [stage, s.stageFrom_append_of_stop hstop, List.append_nil, stageFrom, if_neg (by simp)]
  rw [List.nil_append] at hbelow
  rw [hbelow]
  rfl

theorem stage_append_return (s : Shape) (u : List Cell) :
    s.stage (u ++ [.char '\r']) = s.stage u ++ [.char '\r'] := by
  have hstop : StopAhead [.char '\r'] [] := ⟨by simp, by simp, rfl⟩
  rw [stage, s.stageFrom_append_of_stop hstop, stageFrom, if_neg (by simp)]
  rfl

end Shape

theorem stageAll_append_newline (shapes : List Shape) (u v : List Cell) :
    stageAll shapes (u ++ .char '\n' :: v) =
      stageAll shapes u ++ .char '\n' :: stageAll shapes v := by
  induction shapes generalizing u v with
  | nil => rfl
  | cons s shapes ih =>
    rw [stageAll, List.foldl_cons, s.stage_append_newline]
    exact ih (s.stage u) (s.stage v)

theorem stageAll_append_return (shapes : List Shape) (u : List Cell) :
    stageAll shapes (u ++ [.char '\r']) = stageAll shapes u ++ [.char '\r'] := by
  induction shapes generalizing u with
  | nil => rfl
  | cons s shapes ih =>
    rw [stageAll, List.foldl_cons, s.stage_append_return]
    exact ih (s.stage u)

/-! ### Branding -/

theorem brandShapes_append_newline (shapes : List Shape) (target u v : List Char) :
    brandShapes shapes target (u ++ '\n' :: v) =
      brandShapes shapes target u ++ '\n' :: brandShapes shapes target v := by
  rw [brandShapes, cells_append_newline, stageAll_append_newline, expand_append, expand_cons]
  rfl

theorem brandShapes_append_return (shapes : List Shape) (target u : List Char) :
    brandShapes shapes target (u ++ ['\r']) = brandShapes shapes target u ++ ['\r'] := by
  rw [brandShapes, cells_append_return, stageAll_append_return, expand_append]
  rfl

/-- A text cut at a line end of either kind is branded piece by piece. -/
theorem brandShapes_append_lineEnd (shapes : List Shape) (target u v : List Char)
    {lineEnd : List Char} (h : lineEnd = ['\n'] ∨ lineEnd = ['\r', '\n']) :
    brandShapes shapes target (u ++ lineEnd ++ v) =
      brandShapes shapes target u ++ lineEnd ++ brandShapes shapes target v := by
  rcases h with rfl | rfl
  · simp [brandShapes_append_newline]
  · have hcut : u ++ ['\r', '\n'] ++ v = (u ++ ['\r']) ++ '\n' :: v := by simp
    rw [hcut, brandShapes_append_newline, brandShapes_append_return]
    simp

/-- An ordinary file is branded line by line, and so is a loader, whatever they hold. -/
theorem brand_append_lineEnd (b : Brand) (before after : List Char) {lineEnd : List Char}
    (h : lineEnd = ['\n'] ∨ lineEnd = ['\r', '\n']) :
    brandModule b (before ++ lineEnd ++ after) =
        brandModule b before ++ lineEnd ++ brandModule b after ∧
      brandLoader b (before ++ lineEnd ++ after) =
        brandLoader b before ++ lineEnd ++ brandLoader b after :=
  ⟨brandShapes_append_lineEnd moduleShapes b.target before after h,
    brandShapes_append_lineEnd loaderShapes b.target before after h⟩

/-- A reference right before the line end, and one whose free place is the line end. -/
theorem brand_append_lineEnd_crlf :
    ("\r\n".toList = ['\n'] ∨ "\r\n".toList = ['\r', '\n']) ∧
      brandModule ⟨"Acme", by decide⟩ "namespace WPLite;\r\n\\WPLite\\A".toList =
        "namespace Acme\\WPLite;\r\n\\Acme\\WPLite\\A".toList ∧
      brandLoader ⟨"Acme", by decide⟩ "namespace WPLite;\r\n\\WPLite\\A".toList =
        "namespace WPLite;\r\n\\Acme\\WPLite\\A".toList := by
  have hend : "\r\n".toList = ['\n'] ∨ "\r\n".toList = ['\r', '\n'] := Or.inr rfl
  obtain ⟨hmodule, hloader⟩ := brand_append_lineEnd ⟨"Acme", by decide⟩
    "namespace WPLite;".toList "\\WPLite\\A".toList hend
  exact ⟨hend, hmodule.trans (by decide), hloader.trans (by decide)⟩

end Branding
