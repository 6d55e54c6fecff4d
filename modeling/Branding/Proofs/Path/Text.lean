import Branding.Path
import Mathlib.Data.List.Basic

/-!
# Paths and their texts

A path is read by cutting a text at its slashes, and is written by putting them back. So no segment
of a path that was read holds a slash, and what is written from segments without slashes is read as
it was. A relative path must not begin with an empty segment for that, since its text would begin
with a slash.

## Main results

* `Path.slash_not_mem_of_mem_ofString` — the segments of a path that was read
* `Path.split_append_cons`, `Path.split_append` — what is put behind a text, with a slash and
  without
* `Path.ofString_text_ofNames` — a path that was written is read again
-/

namespace Branding

/-! ### Parts with separators between them -/

theorem intercalate_concat_append (sep : List Char) (parts : List (List Char))
    (last more : List Char) :
    sep.intercalate (parts ++ [last]) ++ more = sep.intercalate (parts ++ [last ++ more]) := by
  induction parts with
  | nil => simp
  | cons part parts ih =>
    have hcons : ∀ end' : List Char, sep.intercalate (part :: parts ++ [end']) =
        part ++ sep ++ sep.intercalate (parts ++ [end']) := by
      intro end'
      obtain ⟨next, others, hnext⟩ := List.exists_cons_of_ne_nil (l := parts ++ [end']) (by simp)
      rw [List.cons_append, hnext, List.intercalate_cons_cons]
    rw [hcons, hcons, List.append_assoc, ih]

/-- Parts that are not empty give a text that begins as the first of them does. -/
theorem head?_intercalate_ne {c : Char} {sep : List Char} {parts : List (List Char)}
    (h : ∀ part ∈ parts, part ≠ [] ∧ c ∉ part) : (sep.intercalate parts).head? ≠ some c := by
  cases parts with
  | nil => simp
  | cons part parts =>
    obtain ⟨hne, hc⟩ := h part List.mem_cons_self
    obtain ⟨a, more, rfl⟩ := List.exists_cons_of_ne_nil hne
    have ha : a ≠ c := fun heq => hc (heq ▸ List.mem_cons_self)
    cases parts <;> simpa [List.intercalate_cons_cons] using ha

/-- It ends as the last of them does. -/
theorem getLast?_intercalate_ne {c : Char} {sep : List Char} {parts : List (List Char)}
    (h : ∀ part ∈ parts, part ≠ [] ∧ c ∉ part) : (sep.intercalate parts).getLast? ≠ some c := by
  rcases List.eq_nil_or_concat parts with rfl | ⟨front, part, rfl⟩
  · simp
  · rw [List.concat_eq_append] at h ⊢
    obtain ⟨hne, hc⟩ := h part (by simp)
    have hend := intercalate_concat_append sep front [] part
    rw [List.nil_append] at hend
    rw [← hend, List.getLast?_append_of_ne_nil _ hne]
    exact fun hlast => hc (List.mem_of_getLast? hlast)

/-- Nothing is cut off a text that begins otherwise. -/
theorem dropWhile_beq_of_head?_ne {c : Char} {text : List Char} (h : text.head? ≠ some c) :
    text.dropWhile (· == c) = text := by
  cases text with
  | nil => rfl
  | cons a text => exact List.dropWhile_cons_of_neg (by simpa using h)

namespace Path

/-! ### Texts cut at their slashes -/

theorem split_of_not_mem {text : List Char} (h : '/' ∉ text) :
    split text = [String.ofList text] := by
  have hsingle : text.splitOn '/' = [text] := List.splitOnP_eq_singleton fun c hc => by
    rw [beq_eq_false_iff_ne]
    rintro rfl
    exact h hc
  rw [split, hsingle, List.map_singleton]

theorem not_mem_of_mem_splitOn {text part : List Char} {c : Char} (h : part ∈ text.splitOn c) :
    c ∉ part := by
  induction text generalizing part with
  | nil =>
    rw [List.splitOn_nil, List.mem_singleton] at h
    simp [h]
  | cons a text ih =>
    obtain ⟨first, rest, hparts⟩ := List.exists_cons_of_ne_nil (List.splitOnP_ne_nil (· == c) text)
    have hfirst : c ∉ first :=
      ih (hparts.symm ▸ List.mem_cons_self : first ∈ text.splitOnP (· == c))
    rw [List.splitOn, List.splitOnP_cons_eq_if_modifyHead] at h
    split at h
    · rcases List.mem_cons.1 h with rfl | h
      · exact List.not_mem_nil
      · exact ih h
    next ha =>
      rw [hparts, List.modifyHead_cons] at h
      rcases List.mem_cons.1 h with rfl | h
      · rw [List.mem_cons, not_or]
        exact ⟨fun hc => ha (by simp [hc]), hfirst⟩
      · exact ih (hparts.symm ▸ List.mem_cons_of_mem _ h : part ∈ text.splitOnP (· == c))

theorem split_append_cons (text rest : List Char) :
    split (text ++ '/' :: rest) = split text ++ split rest := by
  rw [split, List.splitOn, List.splitOnP_append_cons _ _ (by simp), List.map_append]
  rfl

theorem split_ne_nil (text : List Char) : split text ≠ [] := by
  rw [split, Ne, List.map_eq_nil_iff]
  exact List.splitOnP_ne_nil _ text

theorem split_intercalate {parts : List (List Char)} (hne : parts ≠ []) :
    split (['/'].intercalate parts) = parts.flatMap split := by
  induction parts with
  | nil => exact absurd rfl hne
  | cons part parts ih =>
    cases parts with
    | nil => simp
    | cons next parts =>
      rw [List.intercalate_cons_cons, List.append_assoc, List.singleton_append, split_append_cons,
        ih (List.cons_ne_nil _ _)]
      rfl

/-- What follows a text is put behind its last part. -/
theorem split_append {text more : List Char} (hmore : '/' ∉ more) {front : List String}
    {last : String} (h : split text = front ++ [last]) :
    split (text ++ more) = front ++ [last ++ String.ofList more] := by
  obtain ⟨parts, end', hparts⟩ : ∃ parts end', text.splitOn '/' = parts ++ [end'] := by
    obtain ⟨parts, end', hparts⟩ := (List.eq_nil_or_concat (text.splitOn '/')).resolve_left
      (List.splitOnP_ne_nil _ text)
    exact ⟨parts, end', hparts.trans (List.concat_eq_append ..)⟩
  rw [split, hparts, List.map_append, List.map_singleton] at h
  obtain ⟨rfl, hlast⟩ := List.append_inj' h rfl
  obtain rfl : String.ofList end' = last := List.head_eq_of_cons_eq hlast
  have hfree : ∀ part ∈ parts ++ [end' ++ more], '/' ∉ part := by
    have hmem : ∀ part ∈ parts ++ [end'], '/' ∉ part :=
      fun part hpart => not_mem_of_mem_splitOn (hparts ▸ hpart)
    rw [List.forall_mem_append, List.forall_mem_singleton] at hmem ⊢
    exact ⟨hmem.1, fun hslash => (List.mem_append.1 hslash).elim hmem.2 hmore⟩
  have htext : text ++ more = ['/'].intercalate (parts ++ [end' ++ more]) := by
    rw [← intercalate_concat_append, ← hparts, List.intercalate_splitOn]
  rw [htext, split, List.splitOn_intercalate '/' hfree (by simp), List.map_append,
    List.map_singleton, String.ofList_append]

/-! ### Paths read from texts -/

theorem ofString_of_head?_ne {part : List Char} (h : part.head? ≠ some '/') :
    ofString (String.ofList part) = ⟨false, split part⟩ := by
  rw [ofString, String.toList_ofList]
  split
  next rest => exact absurd rfl h
  next => rfl

theorem ofString_of_slash {s : String} {chars : List Char} (h : s.toList = '/' :: chars) :
    ofString s = ⟨true, split chars⟩ := by
  rw [ofString, h]
  rfl

theorem exists_of_rooted {s : String} (h : (ofString s).rooted = true) :
    ∃ chars, s.toList = '/' :: chars := by
  unfold ofString at h
  split at h
  next rest hs => exact ⟨rest, hs⟩
  next => cases h

theorem slash_not_mem_of_mem_ofString {raw s : String} (h : s ∈ (ofString raw).segments) :
    '/' ∉ s.toList := by
  have hsplit : ∀ text, s ∈ split text → '/' ∉ s.toList := by
    intro text hmem
    obtain ⟨part, hpart, rfl⟩ := List.mem_map.1 hmem
    rw [String.toList_ofList]
    exact not_mem_of_mem_splitOn hpart
  unfold ofString at h
  split at h
  · exact hsplit _ h
  · exact hsplit _ h

theorem ofString_of_not_mem {s : String} (h : '/' ∉ s.toList) : ofString s = ⟨false, [s]⟩ := by
  unfold ofString
  split
  next rest heq => exact absurd (heq ▸ List.mem_cons_self) h
  next => rw [split_of_not_mem h, String.ofList_toList]

/-! ### Paths written as texts -/

theorem toList_text (p : Path) : p.text.toList =
    (if p.rooted then ['/'] else []) ++ ['/'].intercalate (p.segments.map String.toList) := by
  rw [text, String.toList_append, String.toList_intercalate]
  congr 1
  split <;> rfl

/-- What is written from names without slashes is read as it was. -/
theorem ofString_text_ofNames {names : List String} (h : ∀ s ∈ names, s ≠ "" ∧ '/' ∉ s.toList) :
    ofString (ofNames false names).text = ofNames false names := by
  cases names with
  | nil => decide
  | cons first names =>
    have hparts : ∀ part ∈ (first :: names).map String.toList, part ≠ [] ∧ '/' ∉ part := by
      simp only [List.forall_mem_map]
      exact fun s hs => ⟨by simpa using (h s hs).1, (h s hs).2⟩
    have hsplit :
        split (['/'].intercalate ((first :: names).map String.toList)) = first :: names := by
      rw [split, List.splitOn_intercalate '/' (fun part hpart => (hparts part hpart).2) (by simp),
        List.map_map]
      simp [Function.comp_def]
    have htext : (ofNames false (first :: names)).text =
        String.ofList (['/'].intercalate ((first :: names).map String.toList)) := by
      rw [← String.toList_inj, toList_text, String.toList_ofList]
      rfl
    rw [htext, ofString_of_head?_ne (head?_intercalate_ne hparts), hsplit]
    rfl

end Path

end Branding
