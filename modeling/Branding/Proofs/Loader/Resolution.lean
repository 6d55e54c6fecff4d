import Branding.Proofs.Loader.Candidate

/-!
# Class files that the loader finds

A class file is laid out by its namespace: a directory for each segment behind the placeholder, and
the name of the class with the extension of source files. The loader turns the segments behind the
target into directories in the same way. So it finds a branded class file where the segments behind
the target are those that were behind the placeholder, which is what branding keeps.

## Main definitions

* `classFile` — where a class file lies, from the root of its tree

## Main results

* `isUnresolvable_classFile_iff` — the class files that are not found
* `classFile_mem_unresolvable_iff` — the class files that are not found once they are branded
-/

namespace Branding

/-- Where the file of a class lies: a directory for each segment, and the name of the class with the
extension of source files. -/
def classFile (segments : List (List Char)) (name : List Char) : Path :=
  .ofNames false (segments.map String.ofList ++ [String.ofList name ++ "." ++ sourceExtension])

/-- What a class file says: a directory for each segment, and a source file. -/
theorem components_classFile {segments : List (List Char)}
    (hsegments : ∀ s ∈ segments, isIdentifier s = true) (name : List Char) :
    (classFile segments name).components =
      (segments.map String.ofList ++ [String.ofList name ++ "." ++ sourceExtension]).map .name := by
  have hnames : ∀ s ∈ segments.map String.ofList ++ [String.ofList name ++ "." ++ sourceExtension],
      IsName s := by
    rw [List.forall_mem_append, List.forall_mem_singleton, List.forall_mem_map]
    exact ⟨fun s hs => (isStem_of_isIdentifier (hsegments s hs)).isName, isName_sourceFile _⟩
  rw [classFile, Path.components_ofNames hnames]
  rfl

/-- A class file is found where the segments that it declares behind the namespace of the loader are
those it is laid out by. -/
theorem isUnresolvable_classFile_iff {t : Tree} {root : Path} {segments declared : List (List Char)}
    (hsegments : ∀ s ∈ segments, isIdentifier s = true)
    (hdeclared : ∀ s ∈ declared, isIdentifier s = true) {name : List Char}
    (hname : isIdentifier name = true) {target : List Char} {text : String}
    (hfile : t.readText (root.join (classFile segments name)) = .ok text)
    (htext : declaredNamespace? text.toList = some (target ++ subspace declared)) :
    isUnresolvable t ⟨String.ofList target, root⟩ (classFile segments name) = true ↔
      declared ≠ segments := by
  have hfree : ∀ {parts : List (List Char)}, (∀ s ∈ parts, isIdentifier s = true) →
      ∀ s ∈ parts, separator ∉ s :=
    fun hparts s hs => separator_not_mem_of_isIdentifier (hparts s hs)
  have hdirs : ∀ d ∈ segments.map String.ofList, separator ∉ d.toList := by
    rw [List.forall_mem_map]
    exact fun s hs => String.toList_ofList ▸ hfree hsegments s hs
  rw [isUnresolvable_iff (isStem_of_isIdentifier hname) hdirs (components_classFile hsegments name)
    hfile, htext, List.map_map, String.toList_comp_ofList, List.map_id]
  simp only [Option.some.injEq, exists_eq_left', ne_eq, List.append_right_inj]
  exact not_congr ⟨subspace_injective (hfree hdeclared) (hfree hsegments), fun h => h ▸ rfl⟩

/-- A branded class file that is laid out by its namespace is found by the loader of the build,
unless a segment right behind the placeholder repeats it and another segment follows. -/
theorem classFile_mem_unresolvable_iff (b : Brand) {segments : List (List Char)}
    (hsegments : ∀ s ∈ segments, isIdentifier s = true) {name : List Char}
    (hname : isIdentifier name = true) {before after : List Char} (hbefore : EndsAtLineStart before)
    (hfirst : declaredNamespace? before = none)
    (hnul : '\x00' ∉ before ++ declarationLine segments ++ after) {t : Tree} {root : Path}
    (hfile : t.readText (root.join (classFile segments name)) =
      .ok (onChars (brandModule b) (String.ofList (before ++ declarationLine segments ++ after))))
    {m : Manifest} {changed : Bool} (hrecord : ⟨classFile segments name, changed, .normal⟩ ∈ m) :
    classFile segments name ∈ unresolvable t ⟨b.targetText, root⟩ m ↔
      segments.head? = some placeholder ∧ 2 ≤ segments.length := by
  have htext : declaredNamespace? (onChars (brandModule b)
      (String.ofList (before ++ declarationLine segments ++ after))).toList =
        some (b.target ++ subspace (b.declaredSegments segments)) := by
    rw [onChars, String.toList_ofList, String.toList_ofList,
      declaredNamespace?_brandModule b hbefore hfirst hsegments hnul]
  have hdeclared : ∀ s ∈ b.declaredSegments segments, isIdentifier s = true := by
    unfold Brand.declaredSegments
    split
    · exact List.forall_mem_cons.2 ⟨b.identifier, hsegments⟩
    · exact hsegments
  have hmem : classFile segments name ∈ (m.ofRole .normal).map (·.path) :=
    List.mem_map.2 ⟨_, Manifest.mem_ofRole.2 ⟨hrecord, rfl⟩, rfl⟩
  rw [unresolvable, List.mem_filter, and_iff_right hmem, Brand.targetText,
    isUnresolvable_classFile_iff hsegments hdeclared hname hfile htext, Brand.declaredSegments]
  by_cases h : RepeatsPlaceholder segments
  · rw [if_pos h]
    exact iff_of_true (List.cons_ne_self _ _) h
  · rw [if_neg h]
    exact iff_of_false (not_not_intro rfl) h

private def acme : Brand := ⟨"Acme", by decide⟩

/-- A tree that holds nothing but one class file of its own text, branded. -/
private def classTree (segments : List (List Char)) : Tree :=
  let text := "<?php\n".toList ++ declarationLine segments ++ ['\n']
  let names := segments.map String.ofList
  (names.inits.tail.foldl (fun t l => t.put l .directory) (∅ : Tree)).put
    (names ++ ["App.php"]) (.file (onChars (brandModule acme) (String.ofList text)).toUTF8)

private def httpSegments : List (List Char) := ["WPLiteHttp".toList, "WPLite".toList]

private def repeatedSegments : List (List Char) := ["WPLite".toList, "X".toList]

/-- A segment may begin with the placeholder, and a later one may repeat it. -/
theorem classFile_mem_unresolvable_iff_later_segment :
    (∀ s ∈ httpSegments, isIdentifier s = true) ∧
      classFile httpSegments "App".toList ∉
        unresolvable (classTree httpSegments) ⟨acme.targetText, .ofString "/"⟩
          [⟨classFile httpSegments "App".toList, true, .normal⟩] := by
  have hsegments : ∀ s ∈ httpSegments, isIdentifier s = true := by decide
  have hread : (classTree httpSegments).readText
        ((Path.ofString "/").join (classFile httpSegments "App".toList)) =
      .ok (onChars (brandModule acme)
        (String.ofList ("<?php\n".toList ++ declarationLine httpSegments ++ ['\n']))) := by
    decide +kernel
  refine ⟨hsegments, fun hmem => ?_⟩
  have hrepeats := (classFile_mem_unresolvable_iff acme hsegments (by decide)
    (Or.inr ⟨"<?php".toList, by decide⟩) (by decide +kernel) (by decide +kernel) hread
    List.mem_cons_self).1 hmem
  exact absurd hrepeats.1 (by decide)

/-- The segment behind the placeholder repeats it, and the class file is laid out by its namespace:
it is not found. -/
theorem exists_classFile_mem_unresolvable :
    ∃ (b : Brand) (segments : List (List Char)) (name before after : List Char) (t : Tree)
      (root : Path) (m : Manifest),
      (∀ s ∈ segments, isIdentifier s = true) ∧ isIdentifier name = true ∧
        EndsAtLineStart before ∧ declaredNamespace? before = none ∧
        '\x00' ∉ before ++ declarationLine segments ++ after ∧
        t.readText (root.join (classFile segments name)) = .ok (onChars (brandModule b)
          (String.ofList (before ++ declarationLine segments ++ after))) ∧
        ⟨classFile segments name, true, .normal⟩ ∈ m ∧
        classFile segments name ∈ unresolvable t ⟨b.targetText, root⟩ m := by
  refine ⟨acme, repeatedSegments, "App".toList, "<?php\n".toList, ['\n'],
    classTree repeatedSegments, .ofString "/",
    [⟨classFile repeatedSegments "App".toList, true, .normal⟩], ?_⟩
  exact ⟨by decide, by decide, Or.inr ⟨"<?php".toList, by decide⟩, by decide +kernel,
    by decide +kernel, by decide +kernel, List.mem_cons_self, by decide +kernel⟩

end Branding
