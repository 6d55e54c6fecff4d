import Branding.Files.Sources
import Branding.Loader.Resolution
import Branding.Proofs.Source.Kept
import Branding.Proofs.Tree.Spelling

/-!
# Where a loader looks

What a loader is asked for is a namespace, a separator and the name of a file. The name has no
separator in it, so a name in the loader's own namespace is cut in one way only, and each segment
behind that namespace becomes a directory. A file is thus found exactly where the segments that it
declares behind the namespace of the loader are the directories it lies in.

Nothing is asked of how the path of the file is spelled. The path a loader builds is the shortest of
its spellings, and it leads to a file where another one does.

## Main definitions

* `IsStem` — the name of a source file, without its extension

## Main results

* `exists_of_declaredNamespace?` — a declared namespace is made of identifiers
* `Resolver.rest?_concat_iff` — what is left of a name behind the namespace of the loader
* `Resolver.candidate_intercalate` — the path a loader builds for it
* `isUnresolvable_iff` — the files that are not found
-/

namespace Branding

/-! ### Names of files -/

/-- The name of a source file, without its extension. -/
structure IsStem (stem : String) : Prop where
  ne : stem ≠ ""
  dot_not_mem : '.' ∉ stem.toList
  slash_not_mem : '/' ∉ stem.toList
  separator_not_mem : separator ∉ stem.toList

instance (stem : String) : Decidable (IsStem stem) :=
  decidable_of_iff (stem ≠ "" ∧ '.' ∉ stem.toList ∧ '/' ∉ stem.toList ∧ separator ∉ stem.toList)
    ⟨fun h => ⟨h.1, h.2.1, h.2.2.1, h.2.2.2⟩, fun h => ⟨h.1, h.2, h.3, h.4⟩⟩

theorem IsStem.isName {stem : String} (h : IsStem stem) : IsName stem :=
  ⟨h.ne, fun hdot => h.dot_not_mem (hdot ▸ by decide), fun hup => h.dot_not_mem (hup ▸ by decide)⟩

theorem isStem_of_isIdentifier {name : List Char} (h : isIdentifier name = true) :
    IsStem (String.ofList name) := by
  have hchars := isNameChar_of_isIdentifier h
  constructor
  · intro hempty
    obtain rfl : name = [] := by simpa using hempty
    cases h
  all_goals
    rw [String.toList_ofList]
    exact fun hmem => absurd (hchars _ hmem) (by decide)

theorem isName_sourceFile (stem : String) : IsName (stem ++ "." ++ sourceExtension) := by
  have hlength : ∀ s : String, stem ++ "." ++ sourceExtension = s → 4 ≤ s.toList.length := by
    rintro s rfl
    simp [sourceExtension]
  exact ⟨fun h => absurd (hlength _ h) (by decide), fun h => absurd (hlength _ h) (by decide),
    fun h => absurd (hlength _ h) (by decide)⟩

namespace Path

theorem splitName_of_not_mem {name : String} (h : '.' ∉ name.toList) :
    splitName name = (name, none) := by
  have hdrop : name.toList.reverse.dropWhile (· != '.') = [] := by
    rw [List.dropWhile_eq_nil_iff]
    intro c hc
    rw [bne_iff_ne]
    rintro rfl
    exact h (List.mem_reverse.1 hc)
  rw [splitName]
  simp only [hdrop]

theorem splitName_sourceFile {stem : String} (h : stem ≠ "") :
    (splitName (stem ++ "." ++ sourceExtension)).1 = stem := by
  have hreverse : (stem ++ "." ++ sourceExtension).toList.reverse =
      "php".toList.reverse ++ '.' :: stem.toList.reverse := by
    simp [sourceExtension]
  obtain ⟨c, front, hfront⟩ := List.exists_cons_of_ne_nil
    (mt List.reverse_eq_nil_iff.1 (mt String.toList_eq_nil_iff.1 h))
  have hdrop : (stem ++ "." ++ sourceExtension).toList.reverse.dropWhile (· != '.') =
      '.' :: c :: front := by
    rw [hreverse, List.dropWhile_append_of_pos (by simp), hfront]
    rfl
  rw [splitName]
  simp only [hdrop]
  rw [← hfront, List.reverse_reverse, String.ofList_toList]

theorem splitName_fst {name : String} (h : (splitName name).2 = none) :
    (splitName name).1 = name := by
  unfold splitName at h ⊢
  dsimp only at h ⊢
  split at h
  · cases h
  · rfl

/-- An extension put behind a last name that has none. -/
theorem withExtension_concat {last : String} (hname : IsName last)
    (hlast : (splitName last).2 = none) (rooted : Bool) (front : List String) (extension : String) :
    (mk rooted (front ++ [last])).withExtension extension =
      mk rooted (front ++ [last ++ "." ++ extension]) := by
  have hstem : (mk rooted (front ++ [last])).stem? = some last := by
    rw [stem?, fileName?_of_segments rfl hname, Option.map_some, splitName_fst hlast]
  have hcounts : counts rooted last front.reverse = true := by
    rw [counts, if_neg hname.1, if_neg hname.2.1]
  rw [withExtension, hstem]
  simp only [List.reverse_append, List.reverse_singleton, List.singleton_append, stems, hcounts,
    if_true, List.reverse_reverse]

theorem withExtension_descend_concat {last : String} (hname : IsName last)
    (hlast : (splitName last).2 = none) (root : Path) (names : List String) (extension : String) :
    (root.descend (names ++ [last])).withExtension extension =
      root.descend (names ++ [last ++ "." ++ extension]) := by
  rw [descend_concat, descend_concat, child, child]
  obtain ⟨front, -, hjoin⟩ := exists_join_eq (root.descend names)
  rw [hjoin, hjoin, withExtension_concat hname hlast]

end Path

/-! ### Namespaces that are declared -/

theorem subspace_concat (segments : List (List Char)) (name : List Char) :
    subspace (segments ++ [name]) = subspace segments ++ separator :: name := by
  simp [subspace]

theorem cons_subspace_eq_intercalate (segment : List Char) (segments : List (List Char)) :
    segment ++ subspace segments = [separator].intercalate (segment :: segments) := by
  induction segments generalizing segment with
  | nil => simp
  | cons next segments ih =>
    rw [List.intercalate_cons_cons, ← ih, subspace_cons]
    simp

theorem subspace_eq_separator_cons {segments : List (List Char)} (h : segments ≠ []) :
    subspace segments = separator :: [separator].intercalate segments := by
  obtain ⟨segment, segments, rfl⟩ := List.exists_cons_of_ne_nil h
  rw [← cons_subspace_eq_intercalate]
  rfl

/-- What follows a separator is made of segments. -/
theorem subspace_splitOn (text : List Char) :
    subspace (text.splitOn separator) = separator :: text := by
  have hne : text.splitOn separator ≠ [] := List.splitOnP_ne_nil _ text
  rw [subspace_eq_separator_cons hne, List.intercalate_splitOn]

theorem splitOn_cons_subspace {segment : List Char} {segments : List (List Char)}
    (h : ∀ s ∈ segment :: segments, separator ∉ s) :
    (segment ++ subspace segments).splitOn separator = segment :: segments := by
  rw [cons_subspace_eq_intercalate, List.splitOn_intercalate separator h (List.cons_ne_nil _ _)]

theorem subspace_injective {segments segments' : List (List Char)}
    (h : ∀ s ∈ segments, separator ∉ s) (h' : ∀ s ∈ segments', separator ∉ s)
    (heq : subspace segments = subspace segments') : segments = segments' := by
  have hparts : ∀ {parts : List (List Char)}, (∀ s ∈ parts, separator ∉ s) →
      ([] ++ subspace parts).splitOn separator = [] :: parts :=
    fun hsep => splitOn_cons_subspace (List.forall_mem_cons.2 ⟨List.not_mem_nil, hsep⟩)
  have hsplit := hparts h
  rw [heq, hparts h'] at hsplit
  exact (List.cons.inj hsplit).2.symm

theorem intercalate_concat_ne_nil {last : List Char} (h : last ≠ []) (parts : List (List Char)) :
    [separator].intercalate (parts ++ [last]) ≠ [] := by
  intro hnil
  have hall : subspace (parts ++ [last]) = separator :: [separator].intercalate (parts ++ [last]) :=
    subspace_eq_separator_cons (by simp)
  rw [hnil, subspace_concat] at hall
  have hlength := congrArg List.length hall
  simp only [List.length_append, List.length_cons, List.length_nil] at hlength
  exact h (List.eq_nil_of_length_eq_zero (by omega))

/-- A text cut at a separator, where no separator comes after another such cut. -/
theorem append_separator_eq_iff {front last front' last' : List Char} (h : separator ∉ last) :
    front ++ separator :: last = front' ++ separator :: last' ↔
      front = front' ∧ last' = last ∨
        ∃ more, front = front' ++ separator :: more ∧ last' = more ++ separator :: last := by
  constructor
  · intro heq
    rcases List.append_eq_append_iff.1 heq with ⟨more, rfl, hmore⟩ | ⟨more, rfl, hmore⟩
    · cases more with
      | nil => exact Or.inl ⟨(List.append_nil _).symm, (List.cons.inj hmore).2.symm⟩
      | cons c more =>
        obtain ⟨-, rfl⟩ := List.cons.inj hmore
        exact absurd (by simp) h
    · cases more with
      | nil => exact Or.inl ⟨List.append_nil _, (List.cons.inj hmore).2⟩
      | cons c more =>
        obtain ⟨rfl, rfl⟩ := List.cons.inj hmore
        exact Or.inr ⟨more, rfl, rfl⟩
  · rintro (⟨rfl, rfl⟩ | ⟨more, rfl, rfl⟩) <;> simp

theorem exists_of_namespacePath? {text path : List Char} (h : namespacePath? text = some path) :
    ∃ name segments, isIdentifier name = true ∧ (∀ s ∈ segments, isIdentifier s = true) ∧
      path = name ++ subspace segments := by
  induction hlength : text.length using Nat.strong_induction_on generalizing text path with
  | _ n ih =>
    subst hlength
    cases hname : afterName? text with
    | none =>
      rw [namespacePath?_of_afterName?_eq_none hname] at h
      cases h
    | some found =>
      obtain ⟨name, rest⟩ := found
      have hid := isIdentifier_of_afterName? hname
      rw [namespacePath?_of_afterName? hname, Option.some.injEq] at h
      subst h
      cases hmore : (afterWord? [separator] rest).bind namespacePath? with
      | none => exact ⟨name, [], hid, by simp, rfl⟩
      | some path =>
        obtain ⟨more, hword, hpath⟩ := Option.bind_eq_some_iff.1 hmore
        have hlonger : more.length < text.length := by
          rw [← append_of_afterName? hname, afterWord?_eq_some_iff.1 hword]
          simp only [List.length_append, List.length_cons, List.length_nil]
          omega
        obtain ⟨name', segments, hid', hsegments, rfl⟩ := ih _ hlonger hpath rfl
        exact ⟨name, name' :: segments, hid, List.forall_mem_cons.2 ⟨hid', hsegments⟩, rfl⟩

/-- A declared namespace is made of identifiers. -/
theorem exists_of_declaredNamespace? {text ns : List Char}
    (h : declaredNamespace? text = some ns) :
    ∃ name segments, isIdentifier name = true ∧ (∀ s ∈ segments, isIdentifier s = true) ∧
      ns = name ++ subspace segments := by
  obtain ⟨line, -, hline⟩ := List.exists_of_findSome?_eq_some h
  rw [declaredOnLine?, Option.bind_eq_bind, Option.bind_eq_some_iff] at hline
  obtain ⟨rest, -, hrest⟩ := hline
  split at hrest
  · cases hrest
  · split at hrest
    · exact exists_of_namespacePath? hrest
    · cases hrest

/-- So is what follows another namespace in it. -/
theorem isIdentifier_of_declared_below {text front : List Char} {below : List (List Char)}
    (h : declaredNamespace? text = some (front ++ subspace below))
    (hbelow : ∀ s ∈ below, separator ∉ s) : ∀ s ∈ below, isIdentifier s = true := by
  obtain ⟨name, segments, hname, hsegments, hns⟩ := exists_of_declaredNamespace? h
  have hfree : ∀ s ∈ name :: segments, separator ∉ s := by
    rw [List.forall_mem_cons]
    exact ⟨separator_not_mem_of_isIdentifier hname,
      fun s hs => separator_not_mem_of_isIdentifier (hsegments s hs)⟩
  by_cases hnil : below = []
  · simp [hnil]
  · have hcut := splitOn_cons_subspace hfree
    rw [← hns, subspace_eq_separator_cons hnil, List.splitOn,
      List.splitOnP_append_cons _ _ (by simp), ← List.splitOn, ← List.splitOn,
      List.splitOn_intercalate separator hbelow hnil] at hcut
    obtain ⟨first, others, hfirst⟩ : ∃ first others, front.splitOn separator = first :: others :=
      List.exists_cons_of_ne_nil (List.splitOnP_ne_nil _ front)
    rw [hfirst, List.cons_append] at hcut
    intro s hs
    refine hsegments s ?_
    rw [← (List.cons.inj hcut).2]
    exact List.mem_append_right _ hs

namespace Resolver

/-! ### What a loader is asked for -/

theorem rest?_eq_some_iff {resolver : Resolver} {qualified : String} {rest : List Char} :
    resolver.rest? qualified = some rest ↔ rest ≠ [] ∧
      qualified.toList = resolver.namespaceName.toList ++ separator :: rest := by
  rw [rest?]
  simp only [Option.bind_eq_bind, Option.bind_eq_some_iff, afterWord?_eq_some_iff]
  constructor
  · rintro ⟨beyond, hqualified, more, rfl, hrest⟩
    split at hrest
    · cases hrest
    next hne =>
      cases hrest
      exact ⟨by simpa using hne, hqualified⟩
  · rintro ⟨hne, hqualified⟩
    exact ⟨separator :: rest, hqualified, rest, rfl, if_neg (by simpa using hne)⟩

/-- What is left of a namespace and the name of a file behind the namespace of the loader. -/
theorem rest?_concat_iff {stem : String} (hstem : IsStem stem) {ns target : List Char} {root : Path}
    {rest : List Char} :
    rest? ⟨String.ofList target, root⟩
        (String.ofList ns ++ String.singleton separator ++ stem) = some rest ↔
      ∃ below, (∀ s ∈ below, separator ∉ s) ∧ ns = target ++ subspace below ∧
        rest = [separator].intercalate (below ++ [stem.toList]) := by
  have hne : stem.toList ≠ [] := mt String.toList_eq_nil_iff.1 hstem.ne
  have htext : (String.ofList ns ++ String.singleton separator ++ stem).toList =
      ns ++ separator :: stem.toList := by simp
  rw [rest?_eq_some_iff, htext, String.toList_ofList,
    append_separator_eq_iff hstem.separator_not_mem]
  constructor
  · rintro ⟨-, ⟨rfl, rfl⟩ | ⟨more, rfl, rfl⟩⟩
    · exact ⟨[], by simp, by simp, by simp⟩
    · refine ⟨more.splitOn separator, fun s hs => Path.not_mem_of_mem_splitOn hs, ?_, ?_⟩
      · rw [subspace_splitOn]
      · have hbelow := subspace_concat (more.splitOn separator) stem.toList
        rw [subspace_splitOn, subspace_eq_separator_cons (by simp), List.cons_append] at hbelow
        exact (List.cons.inj hbelow).2.symm
  · rintro ⟨below, -, rfl, rfl⟩
    refine ⟨intercalate_concat_ne_nil hne below, ?_⟩
    rw [← append_separator_eq_iff hstem.separator_not_mem, List.append_assoc, ← subspace_concat,
      subspace_eq_separator_cons (by simp)]

/-- The path a loader builds: a directory for each segment, and a source file. -/
theorem candidate_intercalate {segments : List (List Char)}
    (hsegments : ∀ s ∈ segments, isIdentifier s = true) {stem : String} (hstem : IsStem stem)
    (resolver : Resolver) :
    resolver.candidate ([separator].intercalate (segments ++ [stem.toList])) =
      resolver.root.descend
        (segments.map String.ofList ++ [stem ++ "." ++ sourceExtension]) := by
  have hfree : ∀ s ∈ segments ++ [stem.toList], separator ∉ s := by
    rw [List.forall_mem_append, List.forall_mem_singleton]
    exact ⟨fun s hs => separator_not_mem_of_isIdentifier (hsegments s hs),
      hstem.separator_not_mem⟩
  have hparts : splitSeparators ([separator].intercalate (segments ++ [stem.toList])) =
      segments.map String.ofList ++ [stem] := by
    rw [splitSeparators, List.splitOn_intercalate separator hfree (by simp), List.map_append,
      List.map_singleton, String.ofList_toList]
  have hslash : ∀ s ∈ segments.map String.ofList ++ [stem], '/' ∉ s.toList := by
    rw [List.forall_mem_append, List.forall_mem_singleton, List.forall_mem_map]
    exact ⟨fun s hs => (isStem_of_isIdentifier (hsegments s hs)).slash_not_mem,
      hstem.slash_not_mem⟩
  have hfold := Path.foldl_join_map_name hslash resolver.root
  rw [List.foldl_map] at hfold
  simp only [Component.text] at hfold
  rw [candidate, hparts, hfold, Path.withExtension_descend_concat hstem.isName
    (by rw [Path.splitName_of_not_mem hstem.dot_not_mem])]

theorem resolve?_eq_some_iff {t : Tree} {resolver : Resolver} {qualified : String} {p : Path} :
    resolver.resolve? t qualified = some p ↔
      ∃ rest, resolver.rest? qualified = some rest ∧ p = resolver.candidate rest ∧
        t.isFile p = true := by
  rw [resolve?, Option.bind_eq_bind, Option.bind_eq_some_iff]
  refine exists_congr fun rest => and_congr_right fun _ => ?_
  by_cases hfile : t.isFile (resolver.candidate rest) = true
  · simp only [if_pos hfile, Option.some.injEq]
    exact ⟨fun h => ⟨h.symm, h ▸ hfile⟩, fun h => h.1.symm⟩
  · simp only [if_neg hfile]
    exact ⟨nofun, fun ⟨hp, hfile'⟩ => absurd (hp ▸ hfile') hfile⟩

/-- The file a loader finds for a name in a declared namespace. -/
theorem resolve?_concat_iff {stem : String} (hstem : IsStem stem) {text ns : List Char}
    (hdeclared : declaredNamespace? text = some ns) {t : Tree} {target : List Char}
    {root p : Path} :
    resolve? t ⟨String.ofList target, root⟩
        (String.ofList ns ++ String.singleton separator ++ stem) = some p ↔
      ∃ below, (∀ s ∈ below, isIdentifier s = true) ∧ ns = target ++ subspace below ∧
        p = root.descend (below.map String.ofList ++ [stem ++ "." ++ sourceExtension]) ∧
        t.isFile p = true := by
  rw [resolve?_eq_some_iff]
  constructor
  · rintro ⟨rest, hrest, rfl, hfile⟩
    obtain ⟨below, hbelow, rfl, rfl⟩ := (rest?_concat_iff hstem).1 hrest
    have hids := isIdentifier_of_declared_below hdeclared hbelow
    rw [candidate_intercalate hids hstem] at hfile ⊢
    exact ⟨below, hids, rfl, rfl, hfile⟩
  · rintro ⟨below, hids, rfl, rfl, hfile⟩
    refine ⟨_, (rest?_concat_iff hstem).2
      ⟨below, fun s hs => separator_not_mem_of_isIdentifier (hids s hs), rfl, rfl⟩, ?_, hfile⟩
    rw [candidate_intercalate hids hstem]

end Resolver

/-! ### Files that are not found -/

theorem Tree.isFile_of_readText {t : Tree} {p : Path} {text : String}
    (h : t.readText p = .ok text) : t.isFile p = true := by
  unfold readText at h
  cases hbytes : t.readBytes p with
  | error r => rw [hbytes] at h; cases h
  | ok bytes =>
    obtain ⟨l, hfind⟩ := Tree.exists_find_of_readBytes hbytes
    exact Tree.isFile_iff.2 ⟨l, bytes, hfind⟩

/-- A file that declares a namespace is found where its directories are the segments that it
declares behind the namespace of the loader. -/
theorem isUnresolvable_iff {t : Tree} {root relative : Path} {dirs : List String} {stem : String}
    (hstem : IsStem stem) (hdirs : ∀ d ∈ dirs, separator ∉ d.toList)
    (hrelative : relative.components = (dirs ++ [stem ++ "." ++ sourceExtension]).map .name)
    {text : String} (hread : t.readText (root.join relative) = .ok text) {target : List Char} :
    isUnresolvable t ⟨String.ofList target, root⟩ relative = true ↔
      ∃ ns, declaredNamespace? text.toList = some ns ∧
        ns ≠ target ++ subspace (dirs.map String.toList) := by
  have hfileName : relative.stem? = some stem := by
    rw [Path.stem?, Path.fileName?, hrelative]
    simp [Path.splitName_sourceFile hstem.ne]
  rw [isUnresolvable]
  simp only [hread, hfileName]
  cases hdeclared : declaredNamespace? text.toList with
  | none => simp
  | some ns =>
    simp only [Option.some.injEq, exists_eq_left']
    rw [Bool.not_eq_true', ← Bool.not_eq_true, not_iff_not, Option.any_eq_true]
    have hnames : ∀ {below : List (List Char)}, (∀ s ∈ below, isIdentifier s = true) →
        ∀ s ∈ below.map String.ofList ++ [stem ++ "." ++ sourceExtension], IsName s := by
      intro below hids
      rw [List.forall_mem_append, List.forall_mem_singleton, List.forall_mem_map]
      exact ⟨fun s hs => (isStem_of_isIdentifier (hids s hs)).isName, isName_sourceFile stem⟩
    have hagrees : ∀ {below : List (List Char)}, (∀ s ∈ below, isIdentifier s = true) →
        ((root.descend (below.map String.ofList ++ [stem ++ "." ++ sourceExtension])).agrees
          (root.join relative) = true ↔ below = dirs.map String.toList) := by
      intro below hids
      rw [Path.agrees_descend_iff hrelative (by simp) (hnames hids), List.append_left_inj]
      constructor
      · rintro rfl
        rw [List.map_map, String.toList_comp_ofList, List.map_id]
      · rintro rfl
        rw [List.map_map, String.ofList_comp_toList, List.map_id]
    constructor
    · rintro ⟨found, hfound, hsame⟩
      obtain ⟨below, hids, rfl, rfl, -⟩ := (Resolver.resolve?_concat_iff hstem hdeclared).1 hfound
      rw [(hagrees hids).1 hsame]
    · rintro rfl
      have hids := isIdentifier_of_declared_below hdeclared (List.forall_mem_map.2 hdirs)
      refine ⟨_, (Resolver.resolve?_concat_iff hstem hdeclared).2 ⟨_, hids, rfl, rfl, ?_⟩,
        (hagrees hids).2 rfl⟩
      have hnames' := hnames hids
      rw [List.map_map, String.ofList_comp_toList, List.map_id] at hnames' ⊢
      exact Path.isFile_descend hrelative (by simp) hnames' (Tree.isFile_of_readText hread)

end Branding
