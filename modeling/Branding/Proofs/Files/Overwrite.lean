import Branding.Proofs.Files.Write
import Branding.Proofs.Path.Outward
import Branding.Proofs.Tree.Spelling

/-!
# A file that is found is written over

A file that a path finds can be read and written by the same path, and nothing has to be made for
that: the directories around the path are all there. So whether a file can be branded is known as
soon as it is found.

## Main results

* `Tree.Lands.create_of_follow` — a way to a file is a way to write it
* `Files.readText?_of_found`, `Files.writeText_of_found` — the file is read and written, and nothing
  else becomes different
-/

namespace Branding

namespace Tree

variable {t : Tree} {k : Nat} {l m : Location} {segments : List String} {bytes : ByteArray}

/-- A way to a file is a way to write it. -/
theorem Lands.create_of_follow (h : t.Lands .follow k l segments (.occupied m (.file bytes))) :
    t.Lands .create k l segments (.occupied m (.file bytes)) := by
  -- the name of the file is the last segment, so slashes alone never follow a name on the way
  have hslashes : ∀ {k : Nat} {l : Location} (front : List String) {rest : List String},
      t.Lands .follow k l (front ++ rest) (.occupied m (.file bytes)) →
        ¬(LastName.create = .create ∧ onlySlashes rest = true) := by
    rintro k l front rest hrest ⟨-, hslashes⟩
    obtain ⟨before, s, hlast, hs⟩ := hrest.exists_of_file
    rw [onlySlashes, Bool.and_eq_true, bne_iff_ne, List.all_eq_true] at hslashes
    obtain ⟨more, last, rfl⟩ := (List.eq_nil_or_concat rest).resolve_left hslashes.1
    rw [List.concat_eq_append, ← List.append_assoc] at hlast
    obtain rfl : last = s := List.head_eq_of_cons_eq (List.append_inj' hlast rfl).2
    exact hs.1 (beq_iff_eq.1 (hslashes.2 last (by simp)))
  generalize hx : Landing.occupied m (.file bytes) = x at h ⊢
  induction h with
  | arrived | free => cases hx
  | blank hs _ ih => exact .blank hs (ih hx)
  | up _ ih => exact .up (ih hx)
  | into hs hshort _ hget hrest ih =>
    subst hx
    exact .into hs hshort (hslashes [] hrest) hget (ih rfl)
  | through hs hshort _ hget _ hrest ih =>
    subst hx
    exact .through hs hshort (hslashes _ hrest) hget (by simp [LastName.holds]) (ih rfl)
  | @file k l s rest bytes hs hshort _ hget hends =>
    have hnil : rest = [] := by simpa [LastName.endsBefore] using hends
    exact .file hs hshort (by simp [hnil, onlySlashes]) hget (by rw [hnil]; rfl)
  | held _ _ _ _ hheld => cases hheld.2

end Tree

/-- A file that is found can be written, and nothing else becomes different. -/
theorem Edit.writeFile_of_found {t : Tree} {p : Path} {l : Location} {bytes : ByteArray}
    (h : t.find p = .ok (l, .file bytes)) (bytes' : ByteArray) :
    ∃ t', Edit.writeFile p bytes' t = (.ok (), t') ∧ t.Sets l (some (.file bytes')) t' := by
  obtain ⟨hadm, hlands⟩ := Tree.find_eq_ok_iff.1 h
  have hland : t.land .create p = .ok (.occupied l (.file bytes)) :=
    Tree.land_eq_ok_iff.2 ⟨hadm, hlands.create_of_follow⟩
  refine ⟨t.put l (.file bytes'), ?_, .put (accepts_of_get? (Tree.get?_of_find h) (by simp))⟩
  rw [writeFile, bind_apply, land_apply, hland]
  rfl

namespace Files

variable {t : Tree} {p : Path} {l : Location} {bytes : ByteArray}

theorem readText?_of_found (h : t.find p = .ok (l, .file bytes)) :
    readText? p t = (.ok (String.fromUTF8? bytes), t) := by
  have hbytes : t.readBytes p = .ok bytes := by
    rw [Tree.readBytes, h]
    rfl
  rw [readText?, readBytes, bind_apply, get_bind_apply, hbytes]
  rfl

/-- The directories around a file that is found are there, so only the file is written. -/
theorem writeText_of_found (h : t.find p = .ok (l, .file bytes)) (text : String) :
    ∃ t', writeText p text t = (.ok (), t') ∧ t.Sets l (some (.file text.toUTF8)) t' := by
  obtain ⟨t', hwrite, hsets⟩ := Edit.writeFile_of_found h text.toUTF8
  have hrun : during (.writingFile p) (edit (Edit.writeFile p text.toUTF8)) t = (.ok (), t') :=
    adapt_eq_ok.2 (adapt_eq_ok.2 hwrite)
  refine ⟨t', ?_, hsets⟩
  unfold writeText
  cases hfirst : p.parent? with
  | none => exact hrun
  | some parent =>
    have hmem : parent ∈ p.enclosing := List.mem_of_mem_head? (by rw [← Path.parent?, hfirst]; rfl)
    refine ite_bind_eq_ok.2 ⟨t, ?_, hrun⟩
    by_cases hne : parent.text ≠ ""
    · obtain ⟨d, hdir⟩ := Tree.find_of_mem_enclosing hne hmem h
      rw [if_pos hne, ensureDirectory_of_found hdir]
    · rw [if_neg hne]
      rfl

end Files

end Branding
