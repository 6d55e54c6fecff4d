import Branding.Proofs.Path.Parent
import Branding.Proofs.Run.Overlap
import Branding.Proofs.Tree.Edits
import Mathlib.Logic.Relation

/-!
# The check of the output in a tree without links

The check looks for the part of a path that exists, from the path outward. Round by round the last
name is set aside and the search goes on with the directory right around. It ends where something
exists, and it gives up where there is no name to set aside: at a step back, and at the root.

Without links it makes no difference where that is. What a round sets aside is a name, and the names
that are set aside, put behind what the rest of the path says, are what all of it says. So the check
compares two lists of names, whatever there is of the output, and whatever there is before a step
back.

## Main definitions

* `Tree.Recedes` — one round of the search for the part that exists

## Main results

* `Tree.wellFounded_recedes` — the search ends
* `Tree.exists_recedes` — it ends where `Tree.settledFrom?` does
* `Tree.Plain.normalize_settled` — where a path would be is what its text says
* `Tree.overlap_iff_lexical` — the check compares what the two texts say
-/

namespace Branding

namespace Tree

/-- One round of the search for the part of a path that exists. A path that leads to nothing gives
its last name to those that are set aside, and the search goes on with the directory right around
it. -/
inductive Recedes (t : Tree) : Path × List String → Path × List String → Prop
  | back {p q : Path} {name : String} {names : List String} (hfree : t.has p = false)
    (hname : p.fileName? = some name) (hparent : p.parent? = some q) :
    Recedes t (p, names) (q, name :: names)

variable {t : Tree} {template output p q : Path} {names : List String}
  {s s' : Path × List String}

/-! ### The search ends -/

theorem Recedes.parent? (h : t.Recedes s s') : s.1.parent? = some s'.1 := by
  cases h with
  | back _ _ hparent => exact hparent

/-- The search ends, in every tree and from every path. -/
theorem wellFounded_recedes (t : Tree) : WellFounded fun s' s => t.Recedes s s' :=
  Subrelation.wf Recedes.parent? (InvImage.wf Prod.fst Path.wellFounded_parent?)

/-- The search ends at a part that exists, or where it gives up, and that is what the list of the
directories around the path gives. -/
theorem exists_recedes (t : Tree) (p : Path) (rest : List String) :
    ∃ q names, Relation.ReflTransGen t.Recedes (p, rest) (q, names ++ rest) ∧
      (t.has q = true ∧
          t.settledFrom? (p :: p.enclosing) = some ((t.canonical? q).getD q, names) ∨
        t.has q = false ∧ (q.fileName? = none ∨ q.parent? = none) ∧
          t.settledFrom? (p :: p.enclosing) = none) := by
  induction p using Path.wellFounded_parent?.induction generalizing rest with
  | _ p ih =>
    by_cases hhas : t.has p = true
    · refine ⟨p, [], .refl, Or.inl ⟨hhas, ?_⟩⟩
      rw [settledFrom?, if_pos hhas]
    · have hfree : t.has p = false := by simpa using hhas
      cases hname : p.fileName? with
      | none =>
        refine ⟨p, [], .refl, Or.inr ⟨hfree, Or.inl hname, ?_⟩⟩
        rw [settledFrom?, if_neg hhas, hname]
        rfl
      | some name =>
        cases hparent : p.parent? with
        | none =>
          refine ⟨p, [], .refl, Or.inr ⟨hfree, Or.inr hparent, ?_⟩⟩
          rw [settledFrom?, if_neg hhas, hname, Path.enclosing_of_parent?_eq_none hparent]
          rfl
        | some outer =>
          obtain ⟨q, names, hrun, hend⟩ := ih outer hparent (name :: rest)
          refine ⟨q, names ++ [name], ?_, ?_⟩
          · rw [List.append_assoc, List.singleton_append]
            exact .head (.back hfree hname hparent) hrun
          · rw [settledFrom?, if_neg hhas, hname, Path.enclosing_of_parent? hparent]
            rcases hend with ⟨hq, hsettled⟩ | ⟨hq, hstop, hsettled⟩
            · exact Or.inl ⟨hq, by rw [hsettled]; rfl⟩
            · exact Or.inr ⟨hq, hstop, by rw [hsettled]; rfl⟩

/-! ### What a round keeps -/

/-- A path and the names that are set aside say together what a path says. -/
structure Spells (p : Path) (s : Path × List String) : Prop where
  rooted : s.1.rooted = true
  isName : ∀ name ∈ s.2, IsName name
  lexical_append : s.1.lexical ++ s.2 = p.lexical

theorem Spells.recedes (h : Spells p s) (hstep : t.Recedes s s') : Spells p s' := by
  obtain ⟨hrooted, hnames, hlexical⟩ := h
  cases hstep with
  | @back p' q name names _ hname hparent =>
    obtain ⟨hq, hisName, hlast⟩ := Path.lexical_of_parent? hrooted hname hparent
    refine ⟨hq, List.forall_mem_cons.2 ⟨hisName, hnames⟩, ?_⟩
    rw [← hlexical, hlast, List.append_assoc, List.singleton_append]

theorem Spells.run (h : Spells p s) (hrun : Relation.ReflTransGen t.Recedes s s') :
    Spells p s' := by
  induction hrun with
  | refl => exact h
  | tail _ hstep ih => exact ih.recedes hstep

/-! ### Where a path would be -/

/-- Without links a path would be where its text says, whatever there is of it. -/
theorem Plain.normalize_settled (ht : t.Plain) (hp : p.rooted = true) :
    (t.settled p).normalize = p.normalize := by
  obtain ⟨q, names, hrun, hend⟩ := exists_recedes t p []
  rw [List.append_nil] at hrun
  rcases hend with ⟨hq, hsettled⟩ | ⟨-, -, hsettled⟩
  · obtain ⟨-, hnames, hlexical⟩ := Spells.run ⟨hp, List.forall_mem_nil _, List.append_nil _⟩ hrun
    obtain ⟨l, e, hfind⟩ := has_iff.1 hq
    obtain ⟨rfl, -, -⟩ := ht.find_eq_ok hfind
    rw [settled, hsettled, canonical?_of_find hfind, Option.getD_some,
      Path.normalize_descend_ofNames (fun _ => Path.isName_of_mem_lexical) hnames,
      Path.normalize_of_rooted hp]
    exact congrArg _ hlexical
  · rw [settled, hsettled]

/-- A template that is there, resolved, is what its text says. -/
theorem Plain.normalize_canonical (ht : t.Plain) (hp : p.rooted = true)
    (hdir : t.isDirectory p = true) :
    ((t.canonical? p).getD p).normalize = p.normalize := by
  obtain ⟨l, hfind⟩ := isDirectory_iff.1 hdir
  obtain ⟨rfl, -, -⟩ := ht.find_eq_ok hfind
  rw [canonical?_of_find hfind, Option.getD_some, Path.normalize_of_rooted rfl,
    Path.lexical_ofNames (fun _ => Path.isName_of_mem_lexical), Path.normalize_of_rooted hp]

/-- Without links an output that has passed the check is apart from the template by what its path
says. -/
theorem Plain.apart_lexical (ht : t.Plain) (houtput : output.rooted = true) {source : Location}
    (hfind : t.find template = .ok (source, .directory))
    (h : t.checkApart template output = .ok ()) : Location.Apart source output.lexical := by
  obtain ⟨source', hfind', hapart⟩ := apart_of_checkApart h
  rw [hfind] at hfind'
  cases hfind'
  refine hapart (fun _ => Path.isName_of_mem_lexical) ?_
  rw [ht.normalize_settled houtput, Path.normalize_of_rooted houtput]

/-- In a tree without links the check refuses an output exactly where, dots and steps back resolved,
one of the two texts says the beginning of what the other says, and allows it everywhere else. The
search that the check makes ends from every path, links or not: at a part of it that exists, behind
which the names that were set aside are put, or where there is no name to set aside or no directory
to go on with, and then the path stays as it is. -/
theorem overlap_iff_lexical (ht : t.Plain) (htemplate : template.rooted = true)
    (hdir : t.isDirectory template = true) (houtput : output.rooted = true) :
    (t.checkApart template output = .error (.of (.overlap output template)) ↔
      template.normalize.components <+: output.normalize.components ∨
        output.normalize.components <+: template.normalize.components) ∧
    (t.checkApart template output = .ok () ↔
      ¬(template.normalize.components <+: output.normalize.components ∨
        output.normalize.components <+: template.normalize.components)) ∧
    ∀ u : Tree, (WellFounded fun s' s => u.Recedes s s') ∧
      ∀ p : Path, ∃ q names, Relation.ReflTransGen u.Recedes (p, []) (q, names) ∧
        (u.has q = true ∧ u.settled p = ((u.canonical? q).getD q).descend names ∨
          u.has q = false ∧ (q.fileName? = none ∨ q.parent? = none) ∧ u.settled p = p) := by
  have hcheck : t.checkApart template output =
      if template.normalize.components <+: output.normalize.components ∨
          output.normalize.components <+: template.normalize.components then
        .error (.of (.overlap output template))
      else .ok () := by
    rw [checkApart, if_pos hdir]
    simp only [ht.normalize_canonical htemplate hdir, ht.normalize_settled houtput, Path.isWithin,
      Bool.or_eq_true, List.isPrefixOf_iff_prefix]
  refine ⟨?_, ?_, fun u => ⟨wellFounded_recedes u, fun p => ?_⟩⟩
  · rw [hcheck]
    split <;> simp_all
  · rw [hcheck]
    split <;> simp_all
  · obtain ⟨q, names, hrun, hend⟩ := exists_recedes u p []
    rw [List.append_nil] at hrun
    refine ⟨q, names, hrun, hend.imp ?_ ?_⟩
    · rintro ⟨hq, hsettled⟩
      exact ⟨hq, by rw [settled, hsettled]⟩
    · rintro ⟨hq, hstop, hsettled⟩
      exact ⟨hq, hstop, by rw [settled, hsettled]⟩

private def sourceTree : Tree :=
  putAll ∅ [(["src"], .directory), (["src", "App.php"], .file "<?php\n".toUTF8)]

private theorem plain_sourceTree : sourceTree.Plain := plain_empty.putAll (by simp) (by decide)

/-- A file before a step back, behind which the output is in the template by its text, and out of it
again. -/
theorem overlap_iff_lexical_behind_file :
    sourceTree.has (.ofString "/src/App.php/..") = false ∧
      sourceTree.checkApart (.ofString "/src/.") (.ofString "/src/App.php/..//Http") =
        .error (.of (.overlap (.ofString "/src/App.php/..//Http") (.ofString "/src/."))) ∧
      sourceTree.checkApart (.ofString "/src/.") (.ofString "/src/App.php/../../core") =
        .ok () := by
  have hdir : sourceTree.isDirectory (.ofString "/src/.") = true := by decide +kernel
  refine ⟨by decide +kernel, ?_, ?_⟩
  · exact (overlap_iff_lexical plain_sourceTree (by decide) hdir (by decide)).1.2
      (by decide +kernel)
  · exact (overlap_iff_lexical plain_sourceTree (by decide) hdir (by decide)).2.1.2
      (by decide +kernel)

end Tree

end Branding
