import Branding.Proofs.Loader.Candidate
import Branding.Proofs.Tree.Edits

/-!
# What the generated loader requires

The generated loader writes a path: the root, a slash, what is left of the name with a slash for
each separator, and the extension. `Resolver.candidate` follows the parts of the name from the root
one by one and puts the extension in the place of the last one's own. The two paths have the same
segments, but for empty ones, unless a part begins at the root anew or the last name is no name or
has a dot inside. Then the file that is found is not the one that is required.

## Main definitions

* `required` — the path that the generated loader requires
* `IsDirect` — what is left of a name and is followed as it is written

## Main results

* `Resolver.candidate_shortens` — the path that is followed is the one that is required, shortened
* `Resolver.resolve?_required` — a loader finds the file that is required, if it is there
* `Resolver.exists_required_not_found` — a file with a dot in its name is required and is not found
-/

namespace Branding

/-- A text with a slash for each separator. -/
def slashed (text : List Char) : List Char := text.map fun c => if c = separator then '/' else c

/-- The path that the generated loader requires for what is left of a name. -/
def required (root : String) (rest : List Char) : Path :=
  .ofString (root ++ "/" ++ String.ofList (slashed rest) ++ "." ++ sourceExtension)

/-- What is left of a name and is followed as it is written: no part begins at the root anew, and
the last name has no extension that could be exchanged. -/
structure IsDirect (rest : List Char) : Prop where
  relative : ∀ part ∈ rest.splitOn separator, part.head? ≠ some '/'
  exists_last : ∃ last, (Path.split (slashed rest)).getLast? = some last ∧ IsName last ∧
    (Path.splitName last).2 = none

/-! ### A slash for each separator -/

theorem slashed_append (text rest : List Char) :
    slashed (text ++ rest) = slashed text ++ slashed rest :=
  List.map_append

theorem slashed_of_not_mem {text : List Char} (h : separator ∉ text) : slashed text = text := by
  rw [slashed]
  conv_rhs => rw [← List.map_id text]
  refine List.map_congr_left fun c hc => if_neg ?_
  rintro rfl
  exact h hc

theorem slashed_intercalate {parts : List (List Char)} (h : ∀ part ∈ parts, separator ∉ part) :
    slashed ([separator].intercalate parts) = ['/'].intercalate parts := by
  induction parts with
  | nil => rfl
  | cons part parts ih =>
    rw [List.forall_mem_cons] at h
    cases parts with
    | nil => rw [List.intercalate_singleton, List.intercalate_singleton, slashed_of_not_mem h.1]
    | cons next parts =>
      rw [List.intercalate_cons_cons, List.intercalate_cons_cons, slashed_append, slashed_append,
        ih h.2, slashed_of_not_mem h.1]
      rfl

namespace Path

/-! ### The path that is followed -/

/-- Parts that do not begin at the root are followed segment by segment. -/
theorem Shortens.foldl_join {p q : Path} (h : q.Shortens p) {parts : List (List Char)}
    (hparts : ∀ part ∈ parts, part.head? ≠ some '/') :
    ((parts.map String.ofList).foldl (fun p part => p.join (.ofString part)) q).Shortens
      ⟨p.rooted, p.segments ++ parts.flatMap split⟩ := by
  induction parts generalizing p q with
  | nil => simpa using h
  | cons part parts ih =>
    rw [List.forall_mem_cons] at hparts
    have hnext := h.join (split_ne_nil part)
    rw [← ofString_of_head?_ne hparts.1] at hnext
    have hall := ih hnext hparts.2
    rw [List.append_assoc] at hall
    exact hall

/-- An extension put behind the last name of the shortened path, and of the whole of it. -/
theorem Shortens.withExtension {q : Path} {rooted : Bool} {front : List String} {last : String}
    (h : q.Shortens ⟨rooted, front ++ [last]⟩) (hname : IsName last)
    (hlast : (splitName last).2 = none) (extension : String) :
    (q.withExtension extension).Shortens ⟨rooted, front ++ [last ++ "." ++ extension]⟩ := by
  obtain ⟨rootedq, segments⟩ := q
  obtain ⟨hrooted, hsub, hsame, hend⟩ := h
  obtain rfl : rootedq = rooted := hrooted
  simp only [List.getLast?_concat] at hend
  obtain ⟨before, rfl⟩ := List.getLast?_eq_some_iff.1 hend
  rw [withExtension_concat hname hlast]
  simp only [List.filterMap_append, List.append_left_inj] at hsame
  refine ⟨rfl, (List.append_sublist_append_right _).1 hsub |>.append (List.Sublist.refl _), ?_, ?_⟩
  · simp only [List.filterMap_append, hsame]
  · simp only [List.getLast?_concat]

end Path

theorem required_eq {root : String} (hroot : (Path.ofString root).rooted = true)
    {rest : List Char} {front : List String} {last : String}
    (h : Path.split (slashed rest) = front ++ [last]) :
    required root rest = ⟨true, (Path.ofString root).segments ++ front ++
      [last ++ "." ++ sourceExtension]⟩ := by
  obtain ⟨chars, hchars⟩ := Path.exists_of_rooted hroot
  have htext : (root ++ "/" ++ String.ofList (slashed rest) ++ "." ++ sourceExtension).toList =
      '/' :: (chars ++ '/' :: (slashed rest ++ '.' :: sourceExtension.toList)) := by
    simp [hchars]
  have hextension : '/' ∉ '.' :: sourceExtension.toList := by decide
  have hlast : last ++ String.ofList ('.' :: sourceExtension.toList) =
      last ++ "." ++ sourceExtension := by
    rw [String.append_assoc]
    rfl
  rw [required, Path.ofString_of_slash htext, Path.ofString_of_slash hchars,
    Path.split_append_cons, Path.split_append hextension h, hlast, List.append_assoc]

namespace Resolver

/-- The path that is followed is the one that is required, shortened. -/
theorem candidate_shortens {root : String} (hroot : (Path.ofString root).rooted = true)
    {rest : List Char} (hrest : IsDirect rest) (namespaceName : String) :
    (candidate ⟨namespaceName, .ofString root⟩ rest).Shortens (required root rest) := by
  obtain ⟨last, hlast, hname, hsplit⟩ := hrest.exists_last
  obtain ⟨front, hfront⟩ := List.getLast?_eq_some_iff.1 hlast
  have hne : rest.splitOn separator ≠ [] := List.splitOnP_ne_nil _ rest
  have hflat : (rest.splitOn separator).flatMap Path.split = front ++ [last] := by
    rw [← Path.split_intercalate hne,
      ← slashed_intercalate fun part hpart => Path.not_mem_of_mem_splitOn hpart,
      List.intercalate_splitOn, hfront]
  have hfold := (Path.Shortens.refl (.ofString root)).foldl_join hrest.relative
  rw [hflat, hroot, ← List.append_assoc] at hfold
  rw [required_eq hroot hfront]
  exact hfold.withExtension hname hsplit sourceExtension

/-- A loader finds a path where the file that is required is there, and the path leads to that
file. -/
theorem resolve?_required {t : Tree} {namespaceName root qualified : String}
    (hroot : (Path.ofString root).rooted = true)
    (hrest : ∀ rest ≠ [], qualified.toList = namespaceName.toList ++ separator :: rest →
      IsDirect rest ∧ (required root rest).text.utf8ByteSize < Tree.pathBytesBound) :
    ((∃ p, resolve? t ⟨namespaceName, .ofString root⟩ qualified = some p) ↔
      ∃ rest ≠ [], qualified.toList = namespaceName.toList ++ separator :: rest ∧
        t.isFile (required root rest) = true) ∧
    ∀ p, resolve? t ⟨namespaceName, .ofString root⟩ qualified = some p →
      ∃ rest ≠ [], qualified.toList = namespaceName.toList ++ separator :: rest ∧
        t.find p = t.find (required root rest) := by
  have hfind : ∀ rest ≠ [], qualified.toList = namespaceName.toList ++ separator :: rest →
      ∀ l bytes, t.find (candidate ⟨namespaceName, .ofString root⟩ rest) = .ok (l, .file bytes) ↔
        t.find (required root rest) = .ok (l, .file bytes) := by
    intro rest hne hqualified l bytes
    obtain ⟨hdirect, hshort⟩ := hrest rest hne hqualified
    exact (candidate_shortens hroot hdirect namespaceName).find_file_iff hshort
  simp only [resolve?_eq_some_iff, rest?_eq_some_iff, Tree.isFile_iff]
  refine ⟨⟨?_, ?_⟩, ?_⟩
  · rintro ⟨p, rest, ⟨hne, hqualified⟩, rfl, l, bytes, hfile⟩
    exact ⟨rest, hne, hqualified, l, bytes, (hfind rest hne hqualified l bytes).1 hfile⟩
  · rintro ⟨rest, hne, hqualified, l, bytes, hfile⟩
    exact ⟨_, rest, ⟨hne, hqualified⟩, rfl, l, bytes, (hfind rest hne hqualified l bytes).2 hfile⟩
  · rintro p ⟨rest, ⟨hne, hqualified⟩, rfl, l, bytes, hfile⟩
    exact ⟨rest, hne, hqualified, hfile.trans ((hfind rest hne hqualified l bytes).1 hfile).symm⟩

private def kernelTree : Tree :=
  .putAll ∅ [(["lib"], .directory), (["lib", "Http"], .directory),
    (["lib", "Http", "Kernel.php"], .file "<?php\n".toUTF8)]

/-- An empty part is one more slash, and none is lost at the end of the root. -/
theorem resolve?_required_empty_part :
    ∃ p, resolve? kernelTree ⟨"Acme\\WPLite", .ofString "/lib/"⟩
      "Acme\\WPLite\\Http\\\\Kernel" = some p := by
  have hrest : ∀ rest ≠ [], "Acme\\WPLite\\Http\\\\Kernel".toList =
      "Acme\\WPLite".toList ++ separator :: rest →
        IsDirect rest ∧ (required "/lib/" rest).text.utf8ByteSize < Tree.pathBytesBound := by
    intro rest _ hqualified
    have hkernel : "Acme\\WPLite\\Http\\\\Kernel".toList =
        "Acme\\WPLite".toList ++ separator :: "Http\\\\Kernel".toList := by decide
    obtain rfl : "Http\\\\Kernel".toList = rest := by
      rw [hkernel, List.append_cancel_left_eq] at hqualified
      exact (List.cons.inj hqualified).2
    exact ⟨⟨by decide, "Kernel", by decide, by decide, by decide⟩, by decide +kernel⟩
  exact (resolve?_required (by decide) hrest).1.2
    ⟨"Http\\\\Kernel".toList, by decide, by decide, by decide +kernel⟩

private def dottedTree : Tree := (∅ : Tree).put ["a.b.php"] (.file "<?php\n".toUTF8)

/-- A dot in the last name is taken for that of an extension, and so the file that is required is
not found. -/
theorem exists_required_not_found :
    ∃ (t : Tree) (namespaceName root qualified : String) (rest : List Char),
      (Path.ofString root).rooted = true ∧ rest ≠ [] ∧
        qualified.toList = namespaceName.toList ++ separator :: rest ∧
        t.isFile (required root rest) = true ∧
        resolve? t ⟨namespaceName, .ofString root⟩ qualified = none :=
  ⟨dottedTree, "Acme\\WPLite", "/", "Acme\\WPLite\\a.b", "a.b".toList, by decide, by decide,
    by decide, by decide +kernel, by decide +kernel⟩

end Resolver

end Branding
