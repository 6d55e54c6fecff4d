import Branding.Proofs.Source.Points
import Branding.Proofs.Source.DeclarationLine

/-!
# Texts that branding leaves alone

Branding changes a text exactly where it has something to mark, and it marks something exactly where
the placeholder stands as a reference. As long as nothing has been marked a shape goes by the text
alone, so no pass has to be followed into what an earlier one left behind.

## Main definitions

* `Unreferenced` — a text in which the placeholder is nowhere a reference

## Main results

* `nameCells_append_placeholder` — a text is cut into cells on both sides of an occurrence
* `brandModule_eq_self_iff` — branding leaves exactly these texts alone
-/

namespace Branding

/-- Nowhere in the text is the placeholder a reference. -/
def Unreferenced (text : List Char) : Prop :=
  ∀ before after, text = before ++ placeholder ++ after →
    ¬ PlainSite before after ∧ ¬ EscapedSite before after

/-- No shape fits anywhere. -/
theorem unreferenced_iff_fits {text : List Char} :
    Unreferenced text ↔ ∀ before after, text = before ++ placeholder ++ after →
      ∀ s ∈ moduleShapes, s.fits before after = false := by
  refine forall_congr' fun before => forall_congr' fun after => imp_congr_right fun _ => ?_
  rw [PlainSite, ← fits_declaration_iff, ← fits_importation_iff, ← fits_qualified_iff,
    ← fits_documented_iff, ← fits_escaped_iff]
  simp [moduleShapes, and_assoc]

/-! ### Cells on both sides of an occurrence -/

theorem not_isPrefix_append_placeholder {c : Char} {text : List Char}
    (h : ¬ placeholder <+: c :: text) (after : List Char) :
    ¬ placeholder <+: c :: (text ++ placeholder ++ after) := by
  rintro ⟨rest, hrest⟩
  rw [List.append_assoc, ← List.cons_append] at hrest
  rcases List.append_eq_append_iff.1 hrest with ⟨part, hpart, -⟩ | ⟨part, hpart, hafter⟩
  · exact h ⟨part, hpart.symm⟩
  · cases part with
    | nil => exact h ⟨[], by rw [hpart]; simp⟩
    | cons d part =>
      -- the first letter of the placeholder would be met again in it
      obtain ⟨rfl, -⟩ := List.cons.inj hafter
      have hcapital : 'W' ∈ "PLite".toList := by
        have htail : "PLite".toList = text ++ 'W' :: part := (List.cons.inj hpart).2
        rw [htail]
        simp
      exact absurd hcapital (by decide)

theorem nameCells_append_placeholder (before after : List Char) :
    nameCells (before ++ placeholder ++ after) =
      nameCells before ++ .name :: nameCells after := by
  induction before using occurrence_induction with
  | nil => exact nameCells_placeholder_append after
  | occurrence text ih =>
    rw [List.append_assoc, List.append_assoc, nameCells_placeholder_append, ← List.append_assoc, ih,
      nameCells_placeholder_append, List.cons_append]
  | cons c text h ih =>
    rw [List.cons_append, List.cons_append,
      nameCells_cons (not_isPrefix_append_placeholder h after), ih, nameCells_cons h,
      List.cons_append]

/-! ### Where nothing is marked -/

theorem Claimed.mark_mem {cells claimed : List Cell} (h : Claimed cells claimed) {m : Mark}
    (hm : .mark m ∈ cells) : .mark m ∈ claimed := by
  induction h with
  | nil => exact hm
  | cons hc h ih =>
    rcases List.mem_cons.1 hm with rfl | hm
    · cases hc
      exact List.mem_cons_self
    · exact List.mem_cons_of_mem _ (ih hm)

/-- What a shape recognises it marks. -/
theorem Shape.mark_mem_stage {s : Shape} {front rest : List Cell}
    (h : s.recognises front.reverse rest = true) :
    .mark s.mark ∈ s.stage (front ++ .name :: rest) := by
  obtain ⟨front', -, hstage⟩ := s.exists_stageFrom_append [] front (.name :: rest)
  rw [stage, hstage, List.append_nil, stageFrom, if_pos ⟨rfl, h⟩]
  exact List.mem_append_right _ List.mem_cons_self

/-- After the passes of several shapes nothing is marked exactly where none of them recognised
anything to begin with. -/
theorem mark_not_mem_stageAll_iff {shapes : List Shape} {cells : List Cell}
    (hcells : ∀ m, .mark m ∉ cells) :
    (∀ m, .mark m ∉ stageAll shapes cells) ↔
      ∀ s ∈ shapes, ∀ front rest, cells = front ++ .name :: rest →
        s.recognises front.reverse rest = false := by
  constructor
  · intro h
    induction shapes with
    | nil => exact nofun
    | cons s shapes ih =>
      have hquiet : ∀ front rest, cells = front ++ .name :: rest →
          s.recognises front.reverse rest = false := by
        rintro front rest rfl
        rw [Bool.eq_false_iff]
        intro hrec
        exact h s.mark ((claimed_stageAll shapes _).mark_mem (s.mark_mem_stage hrec))
      rw [stageAll, List.foldl_cons, Shape.stage_eq_self hquiet] at h
      exact List.forall_mem_cons.2 ⟨hquiet, ih h⟩
  · intro h
    rwa [stageAll_eq_self fun s hs => Shape.stage_eq_self (h s hs)]

/-- Among cells without marks a shape goes by the text. -/
theorem Shape.recognises_eq_fits_of_split {s : Shape} (hs : s ∈ moduleShapes) {cells : List Cell}
    (hcells : ∀ m, .mark m ∉ cells) {front rest : List Cell}
    (hsplit : cells = front ++ .name :: rest) :
    s.recognises front.reverse rest =
      s.fits (expand placeholder front) (expand placeholder rest) := by
  subst hsplit
  have hfree : ∀ count, MarkFree count front.reverse rest := by
    rintro count m tail
    refine ⟨fun h => hcells m ?_, fun h => hcells m ?_⟩
    · rw [← List.reverse_reverse front, h]
      simp
    · rw [h]
      simp
  rw [recognises_eq_fits hs (hfree 1) (hfree 2), List.reverse_reverse]

/-- Branding leaves a text alone exactly where nothing in it is a reference. -/
theorem brandModule_eq_self_iff (b : Brand) {text : List Char} (hnul : '\x00' ∉ text) :
    brandModule b text = text ↔ Unreferenced text := by
  have hmark : ∀ m, .mark m ∉ nameCells text := (mark_not_mem_nameCells · text)
  have htext : expand placeholder (stageAll moduleShapes (nameCells text)) = text := by
    rw [(claimed_stageAll moduleShapes (nameCells text)).expand_eq, expand_nameCells]
  have hsame := b.expand_eq_iff 0 (stageAll moduleShapes (nameCells text))
  rw [htext] at hsame
  rw [brandModule, brandShapes, cells_eq_nameCells hnul, hsame, pointsFrom_eq_nil_iff,
    mark_not_mem_stageAll_iff hmark, unreferenced_iff_fits]
  constructor
  · rintro h before after rfl s hs
    have hsplit := nameCells_append_placeholder before after
    have hrec := h s hs _ _ hsplit
    rwa [Shape.recognises_eq_fits_of_split hs hmark hsplit, expand_nameCells,
      expand_nameCells] at hrec
  · intro h s hs front rest hsplit
    rw [Shape.recognises_eq_fits_of_split hs hmark hsplit]
    refine h _ _ ?_ s hs
    rw [← expand_nameCells placeholder text, hsplit, expand_append, expand_cons,
      ← List.append_assoc]
    rfl

end Branding
