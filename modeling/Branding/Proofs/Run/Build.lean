import Branding.Proofs.Files.Loader
import Branding.Proofs.Run.Prepare
import Branding.Proofs.State

/-!
# What a build leaves in its output

A build that succeeds leaves in its output what the template holds, branded file by file, with its
loader generated. What an entry of the output is depends on the names that lead there and on the
entry of the template at these names, and on nothing else, so nothing of an earlier output is left.
The template itself stays as it was.

## Main definitions

* `Layout.builtText`, `Layout.builtBytes` — what a build makes of one file
* `Layout.built` — what a build makes of one entry, the loader included

## Main results

* `Build.brandTree_get?` — a copy of the template, branded
* `Build.run_output` — a whole build
-/

namespace Branding

/-! ### What a build makes of an entry -/

namespace Layout

/-- The text that a build makes of the text of a source file, by the names that lead there. -/
def builtText (layout : Layout) (brand : Brand) (names : List String) : String → String :=
  if names = layout.entryHelper.lexical then onChars (brandEntryHelper brand)
  else onChars (brandModule brand)

/-- The bytes that a build makes of those of a file. A file that is no source stays as it is, and so
does one that is no text. -/
def builtBytes (layout : Layout) (brand : Brand) (names : List String) (bytes : ByteArray) :
    ByteArray :=
  match String.fromUTF8? bytes with
  | some text =>
    if (Path.ofNames false names).isSource then (layout.builtText brand names text).toUTF8
    else bytes
  | none => bytes

/-- The entry that a build makes of one of the template. -/
def builtEntry (layout : Layout) (brand : Brand) (names : List String) : Entry → Entry
  | .file bytes => .file (layout.builtBytes brand names bytes)
  | e => e

/-- What there is in the output of a build at some names, by what the template holds there: the
generated loader in its place, in directories; nothing in the place of a loader that the external
strategy takes away; and in every other place what the build makes of the entry of the template. -/
def built (layout : Layout) (brand : Brand) (strategy : LoaderStrategy) (names : List String)
    (source : Option Entry) : Option Entry :=
  if names = (layout.generated strategy).lexical then
    some (.file (layout.loaderText brand strategy).toUTF8)
  else if names <+: (layout.generated strategy).lexical then some .directory
  else if strategy = .external ∧ names = layout.loaderFile.lexical then none
  else source.map (layout.builtEntry brand names)

variable {layout : Layout} {brand : Brand} {names : List String}

/-- Branding by roles is what a build makes of a file, the loader aside. -/
theorem brandedBytes_eq_builtBytes (h : layout.IsPlaced) (hnames : ∀ s ∈ names, IsName s)
    (hloader : names ≠ layout.loaderFile.lexical) (bytes : ByteArray) :
    brandedBytes layout brand names bytes = layout.builtBytes brand names bytes := by
  have hrole : layout.role? (Path.ofNames false names) =
      some (if names = layout.entryHelper.lexical then .entryHelper else .normal) := by
    rw [role?, if_neg fun hagrees => hloader ((h.loaderFile.agrees_iff hnames).1 hagrees)]
    by_cases hentry : names = layout.entryHelper.lexical
    · rw [if_pos ((h.entryHelper.agrees_iff hnames).2 hentry), if_pos hentry]
    · rw [if_neg fun hagrees => hentry ((h.entryHelper.agrees_iff hnames).1 hagrees),
        if_neg hentry]
  rw [brandedBytes, hrole, builtBytes]
  cases htext : String.fromUTF8? bytes with
  | none => simp [brandedByRole, htext]
  | some text =>
    simp only [brandedByRole, htext, builtText]
    split
    · split <;> rfl
    · rfl

theorem brandedEntry_eq_builtEntry (h : layout.IsPlaced) (hnames : ∀ s ∈ names, IsName s)
    (hloader : names ≠ layout.loaderFile.lexical) (e : Entry) :
    brandedEntry layout brand names e = layout.builtEntry brand names e := by
  cases e with
  | file bytes => rw [brandedEntry, builtEntry, brandedBytes_eq_builtBytes h hnames hloader]
  | directory | link target => rfl

end Layout

namespace Build

variable {layout : Layout} {brand : Brand} {strategy : LoaderStrategy} {t t' : Tree} {root : Path}
  {l : Location}

/-! ### A copy of the template, branded -/

/-- A tree that was branded as a whole, entry by entry. -/
theorem brandTree_get? (hr : t.PlainAt root l) (hrooted : root.rooted = true)
    (hplaced : layout.IsPlaced)
    (hadm : ∀ names, t.get? (l ++ names) ≠ none → (root.descend names).Admissible)
    {m : Manifest} (h : brandTree false layout brand strategy root t = (.ok m, t')) :
    (∀ names, t'.get? (l ++ names) =
        layout.built brand strategy names (t.get? (l ++ names))) ∧
      ∀ m, ¬l <+: m → t'.get? m = t.get? m := by
  obtain ⟨sources, t₁, hsources, hrest⟩ := bind_eq_ok.1 h
  obtain ⟨loader, t₂, hloader, hend⟩ := bind_eq_ok.1 hrest
  obtain ⟨-, rfl⟩ := pure_eq_ok.1 hend
  obtain ⟨-, hr₁, hbranded, helse⟩ := Files.brandSources_eq_ok hr (adapt_eq_ok.1 hsources)
  have hadm₁ : ∀ names, t₁.get? (l ++ names) ≠ none → (root.descend names).Admissible := by
    intro names hne
    refine hadm names fun hnone => hne ?_
    rw [hbranded, hnone, Option.map_none]
  obtain ⟨-, hget⟩ := Files.generateLoader_get? hr₁ hrooted hplaced hadm₁ (adapt_eq_ok.1 hloader)
  refine ⟨fun names => ?_, fun m hm => ?_⟩
  · rw [hget, Layout.built]
    simp only [List.append_right_inj, List.prefix_append_right_inj]
    by_cases hgenerated : names = (layout.generated strategy).lexical
    · rw [if_pos hgenerated, if_pos hgenerated]
    rw [if_neg hgenerated, if_neg hgenerated]
    by_cases habove : names <+: (layout.generated strategy).lexical
    · rw [if_pos habove, if_pos habove]
    rw [if_neg habove, if_neg habove]
    by_cases hremoved : strategy = .external ∧ names = layout.loaderFile.lexical
    · rw [if_pos hremoved, if_pos hremoved]
    rw [if_neg hremoved, if_neg hremoved, hbranded]
    -- the loader is generated or removed, so what is left is branded by its role
    have hloader : names ≠ layout.loaderFile.lexical := by
      cases strategy with
      | selfContained => exact hgenerated
      | external => exact fun hnames => hremoved ⟨rfl, hnames⟩
    refine Option.map_congr fun e he => ?_
    exact Layout.brandedEntry_eq_builtEntry hplaced (hr.isName he) hloader e
  · have hapart : ∀ names, m ≠ l ++ names := by
      rintro names rfl
      exact hm (List.prefix_append _ names)
    rw [hget, if_neg (hapart _), if_neg (c := _ ∧ _) fun hremoved => hapart _ hremoved.2,
      helse m hm]
    split
    next hle =>
      have habove : m <+: l :=
        (List.prefix_or_prefix_of_prefix hle (List.prefix_append _ _)).resolve_right hm
      rw [Tree.get?_eq_directory_of_prefix hr.get? habove fun heq => hapart [] (by simpa using heq)]
    next => rfl

/-! ### A whole build -/

/-- A build that succeeds leaves the template as it was, and leaves in its output what it makes of
each entry of the template, and nothing else. The working directory is rooted, as the system gives
it. Only a state file whose path takes names back can have put something in the template:
directories, on the way to the file. -/
theorem run_output {home : Option String} {workingDir : Path} {options : Options} {t : Tree}
    {c : RunContext} (hload : RunContext.load home workingDir options t = .ok c)
    (hrooted : workingDir.rooted = true) (hreal : c.isPreview = false) {w w' : World}
    (hplain : w.tree.Plain) {m : Manifest} (h : run c w = (.ok m, w')) {template output : Path}
    (htemplate : c.templateDir = .ok template) (houtput : c.outputDir = .ok output)
    (hup : .up ∉ output.components) (hstate : ¬template.lexical <+: c.stateFile.lexical)
    {strategy : LoaderStrategy} (hstrategy : c.strategy = .ok strategy) :
    ∃ explicit brand, c.explicitBrand? = .ok explicit ∧
      explicit.or (State.brand? w.tree c.stateFile) = some brand.name ∧
      (∀ names, w'.tree.get? (template.lexical ++ names) = w.tree.get? (template.lexical ++ names) ∨
        .up ∈ c.stateFile.components ∧ w.tree.get? (template.lexical ++ names) = none ∧
          w'.tree.get? (template.lexical ++ names) = some .directory) ∧
      ∀ names, w'.tree.get? (output.lexical ++ names) =
        c.layout.built brand strategy names (w'.tree.get? (template.lexical ++ names)) := by
  obtain ⟨rfl, hplaced⟩ := RunContext.of_load hload
  rw [Path.up_mem_components_iff] at hup
  obtain ⟨explicit, resolution, root, t₁, t₂, hexplicit, hresolve, hcheck, hrefill, hbrand⟩ :=
    steps_of_work ((mirrors_run c).eq_ok h) htemplate houtput hstrategy
  rw [hreal] at hresolve hrefill hbrand
  have houtputRooted := RunContext.rooted_outputDir hrooted houtput
  -- what the state file can have brought, besides itself
  have hP : ∀ q ∈ c.stateFile.enclosing, ∀ r ∈ q :: q.enclosing,
      ".." ∈ c.stateFile.segments ∨ r.lexical <+: c.stateFile.lexical := by
    intro q hq r hr
    by_cases hback : ".." ∈ c.stateFile.segments
    · exact Or.inl hback
    · exact Or.inr (Path.lexical_prefix_of_mem_around hback hq hr)
  obtain ⟨hname, hplain₁, hsaved⟩ :=
    State.resolve_eq_ok (P := fun m => ".." ∈ c.stateFile.segments ∨ m <+: c.stateFile.lexical)
      hplain hP hresolve
  obtain ⟨source, hfind, -⟩ := Tree.checkApart_eq_ok houtputRooted hcheck
  obtain ⟨rfl, -⟩ := hplain₁.find_eq_ok hfind
  have hreliable := hplain₁.checkReliable houtputRooted hup hcheck template.lexical
  have hkept₂ := refill_keepsBelow hplain₁.named houtputRooted hfind hcheck hreliable
  rw [hrefill] at hkept₂
  obtain ⟨rfl, target, hapart, hr, htarget, hcopied⟩ :=
    refill_eq_ok hplain₁.named houtputRooted hfind hcheck hreliable hrefill
  obtain rfl := htarget hplain₁
  obtain ⟨hcopied, hadm⟩ := hcopied (hplain₁.plainAt (Tree.isDirectory_iff.2 ⟨_, hfind⟩))
    fun l link hlook => hplain₁.no_link l link (Tree.get?_of_look hlook)
  obtain ⟨hbuilt, helse⟩ :=
    brandTree_get? hr houtputRooted hplaced (fun names hne => (hadm names hne).2) hbrand
  have hkept : ∀ names, w'.tree.get? (template.lexical ++ names) =
      t₁.get? (template.lexical ++ names) := by
    intro names
    rw [helse _ (hapart.symm.not_prefix_append names), hkept₂.get?_append]
  refine ⟨explicit, resolution.brand, hexplicit, hname, fun names => ?_, fun names => ?_⟩
  · have hne : template.lexical ++ names ≠ c.stateFile.lexical :=
      fun heq => hstate (heq ▸ List.prefix_append _ names)
    rw [hkept, Path.up_mem_components_iff]
    refine (hsaved _ hne).imp_right fun ⟨hwhere, hnone, hnew⟩ => ⟨?_, hnone, hnew⟩
    exact hwhere.resolve_right fun hle => hstate ((List.prefix_append _ names).trans hle)
  · rw [hbuilt, hcopied, hkept]

/-- A small template, and what an earlier build has left. -/
private def staleTree : Tree := .putAll ∅
  [(["src"], .directory), (["src", "App.php"], .file "<?php\nnamespace WPLite;\n".toUTF8),
    (["core"], .directory), (["core", "Old.php"], .file "<?php\n".toUTF8)]

private theorem plain_staleTree : staleTree.Plain := Tree.plain_empty.putAll (by simp) (by decide)

/-- The file of the template is there, branded, and the old one is gone. -/
theorem run_output_old_gone : ∃ m w',
    run (.inRoot {} ["--prefix=Acme"]) (.typed .empty staleTree) = (.ok m, w') ∧
      w'.tree.get? ["core", "App.php"] =
        some (.file "<?php\nnamespace Acme\\WPLite;\n".toUTF8) ∧
      w'.tree.get? ["core", "Old.php"] = none := by
  obtain ⟨m, w', hrun⟩ := exists_of_isOk (x := run (.inRoot {} ["--prefix=Acme"]))
    (s := .typed .empty staleTree) (by decide +kernel)
  have hload : RunContext.load none (.ofString "/") (.parse ["--prefix=Acme"]) staleTree =
      .ok (.inRoot {} ["--prefix=Acme"]) := RunContext.load_inRoot (by decide +kernel) _
  have hacme : (RunContext.inRoot {} ["--prefix=Acme"]).explicitBrand? = .ok (some "Acme") := by
    decide +kernel
  have htemplate : (RunContext.inRoot {} ["--prefix=Acme"]).templateDir =
      .ok (.ofString "/src") := by decide +kernel
  have houtput : (RunContext.inRoot {} ["--prefix=Acme"]).outputDir =
      .ok (.ofString "/core") := by decide +kernel
  have hstrategy : (RunContext.inRoot {} ["--prefix=Acme"]).strategy = .ok .selfContained := by
    decide +kernel
  obtain ⟨explicit, brand, hexplicit, hname, hkept, hbuilt⟩ :=
    run_output hload rfl (by decide +kernel) plain_staleTree hrun htemplate houtput
      (by decide +kernel) (by decide +kernel) hstrategy
  obtain rfl := Except.ok.inj (hacme.symm.trans hexplicit)
  obtain rfl : brand = ⟨"Acme", by decide⟩ := Brand.eq_of_name (Option.some.inj hname).symm
  have hsource : (Path.ofString "/src").lexical = ["src"] := by decide +kernel
  have htarget : (Path.ofString "/core").lexical = ["core"] := by decide +kernel
  rw [hsource] at hkept
  rw [hsource, htarget] at hbuilt
  -- the path of the state file takes nothing back, so the template is what it was
  have hsame : ∀ names, w'.tree.get? (["src"] ++ names) = staleTree.get? (["src"] ++ names) :=
    fun names => (hkept names).resolve_right fun hnew => absurd hnew.1 (by decide +kernel)
  refine ⟨m, w', hrun, (hbuilt ["App.php"]).trans ?_, (hbuilt ["Old.php"]).trans ?_⟩
  · rw [hsame]
    decide +kernel
  · rw [hsame]
    decide +kernel

end Build

end Branding
