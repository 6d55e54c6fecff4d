import Branding.Proofs.Loader.Candidate
import Branding.Proofs.Tree.Edits

/-!
# What is reported of a build

After a build each of its records is tried on the loader. What is reported does not depend on the
other records, nor on how the path of a record is spelled: a file that cannot be read is reported,
and of those that can be read the ones whose declared namespace is not the one their directories
make below the target. The records of the loader and of the entry helper are passed over.

## Main definitions

* `Reports` — what decides whether a record is reported

## Main results

* `exists_reports` — a report goes through the records one by one
-/

namespace Branding

/-- What decides whether a record is reported, for a brand and a tree below a root. -/
structure Reports (b : Brand) (t : Tree) (root : Path) (reported : FileRecord → Bool) : Prop where
  role_eq {r : FileRecord} (h : reported r = true) : r.role = .normal
  of_unreadable {r : FileRecord} (hrole : r.role = .normal)
    (hread : ∀ text, t.readText (root.join r.path) ≠ .ok text) : reported r = true
  iff_declares {r : FileRecord} (hrole : r.role = .normal) {dirs : List String} {stem : String}
    (hdirs : ∀ d ∈ dirs, separator ∉ d.toList) (hstem : IsStem stem)
    (hpath : r.path.components = (dirs ++ [stem ++ "." ++ sourceExtension]).map .name)
    {text : String} (hread : t.readText (root.join r.path) = .ok text) :
    reported r = true ↔ ∃ ns, declaredNamespace? text.toList = some ns ∧
      ns ≠ b.target ++ subspace (dirs.map String.toList)

theorem unresolvable_eq_map_filter (t : Tree) (resolver : Resolver) (m : Manifest) :
    unresolvable t resolver m =
      (m.filter fun r => r.role == .normal && isUnresolvable t resolver r.path).map (·.path) := by
  rw [unresolvable, Manifest.ofRole, List.filter_map, List.filter_filter]
  simp only [Function.comp_def, Bool.and_comm]

theorem isUnresolvable_of_unreadable {t : Tree} {resolver : Resolver} {relative : Path}
    (h : ∀ text, t.readText (resolver.root.join relative) ≠ .ok text) :
    isUnresolvable t resolver relative = true := by
  rw [isUnresolvable]
  cases hread : t.readText (resolver.root.join relative) with
  | error r => rfl
  | ok text => exact absurd hread (h text)

/-- A report goes through the records one by one, in their order. -/
theorem exists_reports (b : Brand) (t : Tree) (root : Path) :
    ∃ reported, Reports b t root reported ∧
      ∀ m : Manifest, unresolvable t ⟨b.targetText, root⟩ m = (m.filter reported).map (·.path) := by
  refine ⟨fun r => r.role == .normal && isUnresolvable t ⟨b.targetText, root⟩ r.path, ?_,
    unresolvable_eq_map_filter t _⟩
  constructor
  · intro r h
    rw [Bool.and_eq_true] at h
    exact beq_iff_eq.1 h.1
  · intro r hrole hread
    rw [Bool.and_eq_true]
    exact ⟨beq_iff_eq.2 hrole, isUnresolvable_of_unreadable hread⟩
  · intro r hrole dirs stem hdirs hstem hpath text hread
    rw [Bool.and_eq_true, and_iff_right (beq_iff_eq.2 hrole)]
    exact isUnresolvable_iff hstem hdirs hpath hread

private theorem isIdentifier_acme : isIdentifier "Acme".toList = true := by decide

private def reportBrand : Brand := ⟨"Acme", isIdentifier_acme⟩

private def reportText (ns : String) : String := "<?php\nnamespace " ++ ns ++ ";\n"

/-- A tree with a file in its place, a file out of its place and a file that is no text. -/
private def reportTree : Tree := .putAll ∅
  [(["Http"], .directory),
    (["Http", "Kernel-2.php"], .file (reportText "Acme\\WPLite\\Http").toUTF8),
    (["App.php"], .file (reportText "Acme\\WPLite\\Http").toUTF8),
    (["Logo.php"], .file ⟨#[0xff]⟩)]

private def kernelRecord : FileRecord := ⟨.ofString "Http//Kernel-2.php", true, .normal⟩

private def appRecord : FileRecord := ⟨.ofString "App.php", true, .normal⟩

private def logoRecord : FileRecord := ⟨.ofString "Logo.php", false, .normal⟩

private def loaderRecord : FileRecord := ⟨.ofString "autoload.php", true, .loader⟩

/-- The file that is no text is reported, and so is the class that is out of its place. -/
theorem exists_reports_unreadable :
    unresolvable reportTree ⟨reportBrand.targetText, .ofString "/"⟩
      [loaderRecord, logoRecord, kernelRecord, appRecord] =
        [logoRecord.path, appRecord.path] := by
  obtain ⟨reported, h, hreport⟩ := exists_reports reportBrand reportTree (.ofString "/")
  have hloader : reported loaderRecord = false := by
    by_contra hloader
    exact absurd (h.role_eq (by simpa using hloader)) (by decide)
  have hlogo : reported logoRecord = true := h.of_unreadable rfl fun text htext => by
    have herror : reportTree.readText ((Path.ofString "/").join logoRecord.path) =
        .error .notText := by decide +kernel
    rw [herror] at htext
    cases htext
  have hdeclared : declaredNamespace? (reportText "Acme\\WPLite\\Http").toList =
      some (reportBrand.target ++ subspace ["Http".toList]) := by decide +kernel
  have hkernel : reported kernelRecord = false := by
    have hpath : kernelRecord.path.components =
        (["Http"] ++ ["Kernel-2" ++ "." ++ sourceExtension]).map .name := by decide
    have hread : reportTree.readText ((Path.ofString "/").join kernelRecord.path) =
        .ok (reportText "Acme\\WPLite\\Http") := by decide +kernel
    rw [Bool.eq_false_iff, Ne, h.iff_declares rfl (by decide) (by decide) hpath hread]
    rintro ⟨ns, hns, hne⟩
    rw [hdeclared] at hns
    exact hne (Option.some.inj hns).symm
  have happ : reported appRecord = true := by
    have hpath : appRecord.path.components =
        ([] ++ ["App" ++ "." ++ sourceExtension]).map .name := by decide
    have hread : reportTree.readText ((Path.ofString "/").join appRecord.path) =
        .ok (reportText "Acme\\WPLite\\Http") := by decide +kernel
    exact (h.iff_declares rfl (by simp) (by decide) hpath hread).2 ⟨_, hdeclared, by decide⟩
  rw [hreport]
  simp [hloader, hlogo, hkernel, happ]

end Branding
