import Branding.Proofs.Run.Records
import Branding.Proofs.Run.Untouched

/-!
# What a preview of a build foresees

A preview makes its records from the template, and a build from its copy of it. Where the template
has no links in it and the copy is one, branding comes to the same names and the same bytes in both,
so the records of the sources are the same, in the same order. A link in the template is copied as
what it leads to, while a preview goes past it.

The loader is another matter. A build compares what it generates with what branding has left in its
place, and with nothing at all where it has taken the loader of the template away from there. A
preview compares it with what the template has. Whether the two come to the same can be told from
this one entry of the template.

## Main definitions

* `Layout.LoaderForeseen` — the loader is found changed in a preview where it is in a build

## Main results

* `Build.brandTree_record` — the records of a tree, with what becomes of the loader
* `Build.work_record`, `Build.work_record_preview` — those of a build and of a preview
* `Build.run_foreseen` — a build and its preview
-/

namespace Branding

namespace Layout

variable {layout : Layout} {brand : Brand} {strategy : LoaderStrategy} {e : Option Entry}

/-- The template has the loader that is generated in its place just if that is still there when the
sources have been branded and the loader of the template has been taken away. -/
def LoaderForeseen (layout : Layout) (brand : Brand) (strategy : LoaderStrategy)
    (e : Option Entry) :
    Prop :=
  e = some (.file (layout.loaderText brand strategy).toUTF8) ↔
    (strategy = .external → layout.loaderFile.lexical ≠ (layout.generated strategy).lexical) ∧
      e.map (brandedEntry layout brand (layout.generated strategy).lexical) =
        some (.file (layout.loaderText brand strategy).toUTF8)

/-- A loader that takes the place of the one in the template is foreseen, and so is one in whose
place the template has no file. -/
theorem loaderForeseen_of (hplaced : layout.IsPlaced)
    (h : strategy = .selfContained ∨ ∀ bytes, e ≠ some (.file bytes)) :
    layout.LoaderForeseen brand strategy e := by
  unfold LoaderForeseen
  rcases h with rfl | hnone
  · have hself : brandedEntry layout brand (layout.generated .selfContained).lexical = id :=
      brandedEntry_loaderFile hplaced
    rw [hself, Option.map_id, id]
    exact (and_iff_right nofun).symm
  · refine ⟨fun he => absurd he (hnone _), fun hboth => ?_⟩
    obtain ⟨bytes, he, -⟩ := map_brandedEntry_eq_file_iff.1 hboth.2
    exact absurd he (hnone bytes)

end Layout

namespace Build

variable {t t' : Tree} {root : Path} {l : Location} {layout : Layout} {brand : Brand}
  {strategy : LoaderStrategy} {preview : Bool} {m : Manifest}

/-- The records of a tree that was branded, the last of which says whether the loader has become
different. -/
theorem brandTree_record (hr : t.PlainAt root l) (hplaced : layout.IsPlaced)
    (hadm : ∀ names, t.get? (l ++ names) ≠ none → (root.descend names).Admissible)
    (h : brandTree preview layout brand strategy root t = (.ok m, t')) :
    ∃ changed : Bool, m = t.brandedManifest layout brand l ++
        [⟨layout.generated strategy, changed, .loader⟩] ∧
      (changed = false ↔
        (preview = false → strategy = .external →
          layout.loaderFile.lexical ≠ (layout.generated strategy).lexical) ∧
        (t.get? (l ++ (layout.generated strategy).lexical)).map
            (if preview then id else brandedEntry layout brand
              (layout.generated strategy).lexical) =
          some (.file (layout.loaderText brand strategy).toUTF8)) := by
  obtain ⟨sources, t₁, hsources, hrest⟩ := bind_eq_ok.1 h
  obtain ⟨loader, t₂, hloader, hend⟩ := bind_eq_ok.1 hrest
  obtain ⟨rfl, -⟩ := pure_eq_ok.1 hend
  obtain ⟨rfl, hr₁, hbranded, -⟩ := Files.brandSources_eq_ok hr (adapt_eq_ok.1 hsources)
  have hadm₁ : ∀ names, t₁.get? (l ++ names) ≠ none → (root.descend names).Admissible := by
    intro names hne
    refine hadm names fun hnone => hne ?_
    rw [hbranded, hnone, Option.map_none]
  obtain ⟨changed, rfl, hchanged⟩ :=
    Files.generateLoader_record hr₁ hplaced hadm₁ (adapt_eq_ok.1 hloader)
  rw [hbranded] at hchanged
  exact ⟨changed, rfl, hchanged⟩

/-! ### A build and its preview -/

/-- A preview is about the same brand, the same directories and the same strategy. -/
theorem preview_of_load {home : Option String} {workingDir : Path} {tokens : List String} {t : Tree}
    {c c' : RunContext} (h : RunContext.load home workingDir (.parse tokens) t = .ok c)
    (h' : RunContext.load home workingDir (.parse (tokens ++ ["--dry-run"])) t = .ok c') :
    c'.isPreview = true ∧ c'.explicitBrand? = c.explicitBrand? ∧ c'.templateDir = c.templateDir ∧
      c'.outputDir = c.outputDir ∧ c'.strategy = c.strategy ∧ c'.layout = c.layout ∧
        c'.stateFile = c.stateFile := by
  obtain ⟨hoptions, rfl⟩ := RunContext.eq_of_load h h'
  have hdry : Options.parse (tokens ++ ["--dry-run"]) = c.options ++ [("dry-run", .flag)] :=
    hoptions ▸ Options.parse_concat_flag tokens (by decide) (by decide) (by decide)
  rw [hdry]
  have hvalue : ∀ key, key ≠ "dry-run" →
      Options.value? (c.options ++ [("dry-run", .flag)]) key = c.options.value? key :=
    fun key hkey => Options.value?_concat_flag hkey
  refine ⟨Options.has_concat_flag, hvalue "prefix" (by decide), ?_, ?_, ?_, rfl, rfl⟩
  · unfold RunContext.templateDir RunContext.wordOf?
    rw [hvalue "source" (by decide)]
    rfl
  · unfold RunContext.outputDir RunContext.wordOf?
    rw [hvalue "output" (by decide)]
    rfl
  · unfold RunContext.strategy
    rw [hvalue "loader" (by decide)]

/-- What the template held before the brand was remembered is a file where it is one when the output
is checked. -/
theorem checkedTree_file_iff {c : RunContext} {source : Location}
    (hstate : ∀ l e, (checkedTree c t).find c.stateFile = .ok (l, e) → ¬source <+: l)
    (names : List String) (bytes : ByteArray) :
    (checkedTree c t).get? (source ++ names) = some (.file bytes) ↔
      t.get? (source ++ names) = some (.file bytes) := by
  rcases checkedTree_below c t hstate (List.prefix_append source names) with hsame | ⟨hnone, hnew⟩
  · rw [hsame]
  · simp [hnone, hnew]

/-- Remembering the brand brings no link into the template. -/
theorem plainAt_checkedTree {c : RunContext} {template : Path} {source : Location} (ht : t.Named)
    (hr : t.PlainAt template source)
    (hstate : ∀ l e, (checkedTree c t).find c.stateFile = .ok (l, e) → ¬source <+: l) :
    (checkedTree c t).PlainAt template source where
  found := (keepsWays_checkedTree c t).find hr.found
  no_link names target hget := by
    rcases checkedTree_below c t hstate (List.prefix_append source names) with hsame | ⟨-, hnew⟩
    · exact hr.no_link names target (hsame ▸ hget)
    · rw [hnew] at hget
      cases hget
  isName hget name hname :=
    (named_checkedTree c ht).isName_of_mem hget name (List.mem_append_right _ hname)

section Work

variable {c : RunContext} {template output : Path} {source : Location}

/-- The records of a build, told from what there was before. The system takes the path of everything
in the template, since all of it has been copied. -/
theorem work_record (hrooted : c.workingDir.rooted = true) (hplaced : c.layout.IsPlaced)
    (hreal : c.isPreview = false) (ht : t.Named) (h : work c t = (.ok m, t'))
    (htemplate : c.templateDir = .ok template) (houtput : c.outputDir = .ok output)
    (hstrategy : c.strategy = .ok strategy) (hplain : t.PlainAt template source)
    (hstate : ∀ l e, (checkedTree c t).find c.stateFile = .ok (l, e) → ¬source <+: l)
    (hreliable : (checkedTree c t).CheckReliable output source)
    (hlink : ∀ l link, (checkedTree c t).look output ≠ .ok (l, .link link)) :
    ∃ explicit brand, ∃ changed : Bool, c.explicitBrand? = .ok explicit ∧
      explicit.or (State.brand? t c.stateFile) = some brand.name ∧
      m = t.brandedManifest c.layout brand source ++
        [⟨c.layout.generated strategy, changed, .loader⟩] ∧
      (changed = false ↔
        (strategy = .external →
          c.layout.loaderFile.lexical ≠ (c.layout.generated strategy).lexical) ∧
        (t.get? (source ++ (c.layout.generated strategy).lexical)).map
            (brandedEntry c.layout brand (c.layout.generated strategy).lexical) =
          some (.file (c.layout.loaderText brand strategy).toUTF8)) ∧
      ∀ names, t.get? (source ++ names) ≠ none → (template.descend names).Admissible := by
  obtain ⟨explicit, resolution, root, t₁, t₂, hexplicit, hresolve, hcheck, hrefill, hbrand⟩ :=
    steps_of_work h htemplate houtput hstrategy
  obtain ⟨hname, -⟩ := State.steps_of_resolve hresolve
  obtain rfl := checkedTree_of_resolve hexplicit hresolve
  rw [hreal] at hrefill hbrand
  -- the copy is one
  have hplain₁ := plainAt_checkedTree ht hplain hstate
  obtain ⟨rfl, target, -, hr, -, hcopied⟩ := refill_eq_ok (named_checkedTree c ht)
    (RunContext.rooted_outputDir hrooted houtput) hplain₁.found hcheck hreliable hrefill
  obtain ⟨hcopied, hadm⟩ := hcopied hplain₁ hlink
  obtain ⟨changed, rfl, hchanged⟩ :=
    brandTree_record hr hplaced (fun names hne => (hadm names hne).2) hbrand
  refine ⟨explicit, resolution.brand, changed, hexplicit, hname, ?_, ?_, fun names hne => ?_⟩
  · have hsources : t₂.brandedManifest c.layout resolution.brand target =
        t.brandedManifest c.layout resolution.brand source :=
      Tree.brandedManifest_congr fun names bytes => by
        rw [hcopied, checkedTree_file_iff hstate]
    rw [hsources]
  · rw [hcopied] at hchanged
    simpa only [Bool.false_eq_true, if_false, forall_const, map_brandedEntry_eq_file_iff,
      checkedTree_file_iff hstate] using hchanged
  · refine (hadm names ?_).1
    rw [hcopied]
    rcases checkedTree_below c t hstate (List.prefix_append source names) with hkept | ⟨hnone, -⟩
    · rwa [hkept]
    · exact absurd hnone hne

/-- The records of a preview, told from what there is. -/
theorem work_record_preview (hplaced : c.layout.IsPlaced) (hpreview : c.isPreview = true)
    (h : work c t = (.ok m, t')) (htemplate : c.templateDir = .ok template)
    (houtput : c.outputDir = .ok output) (hstrategy : c.strategy = .ok strategy)
    (hplain : t.PlainAt template source)
    (hadm : ∀ names, t.get? (source ++ names) ≠ none → (template.descend names).Admissible) :
    ∃ explicit brand, ∃ changed : Bool, c.explicitBrand? = .ok explicit ∧
      explicit.or (State.brand? t c.stateFile) = some brand.name ∧
      m = t.brandedManifest c.layout brand source ++
        [⟨c.layout.generated strategy, changed, .loader⟩] ∧
      (changed = false ↔ t.get? (source ++ (c.layout.generated strategy).lexical) =
        some (.file (c.layout.loaderText brand strategy).toUTF8)) := by
  obtain ⟨explicit, resolution, root, t₁, t₂, hexplicit, hresolve, -, hrefill, hbrand⟩ :=
    steps_of_work h htemplate houtput hstrategy
  obtain ⟨hname, -⟩ := State.steps_of_resolve hresolve
  rw [hpreview] at hresolve hrefill hbrand
  -- nothing has become different, and the template itself is looked through
  obtain rfl := (State.moves_resolve _ _).of_eq_ok hresolve
  obtain ⟨rfl, rfl⟩ := refill_preview hrefill
  obtain ⟨changed, rfl, hchanged⟩ := brandTree_record hplain hplaced hadm hbrand
  refine ⟨explicit, resolution.brand, changed, hexplicit, hname, rfl, ?_⟩
  simpa only [if_true, Option.map_id, id, Bool.true_eq_false, false_imp_iff, true_and]
    using hchanged

end Work

/-- A build and its preview have the same records of the sources, in the same order, and one of the
loader each. The two manifests are equal just if the preview foresees what becomes of the loader,
and that is so where the loader takes the place of the one in the template, and where the template
has no file in its place. There are no links in the template and the state file does not lie there.
The check of the output is reliable, and the output is no link. -/
theorem run_foreseen {home : Option String} {workingDir : Path} {tokens : List String} {t : Tree}
    {c c' : RunContext} (hload : RunContext.load home workingDir (.parse tokens) t = .ok c)
    (hload' : RunContext.load home workingDir (.parse (tokens ++ ["--dry-run"])) t = .ok c')
    (hrooted : workingDir.rooted = true) (hreal : c.isPreview = false) {w w' v v' : World}
    (hnamed : w.tree.Named) {m m' : Manifest} (h : run c w = (.ok m, w')) (hsame : v.tree = w.tree)
    (h' : run c' v = (.ok m', v')) {template output : Path}
    (htemplate : c.templateDir = .ok template)
    (houtput : c.outputDir = .ok output) (hstrategy : c.strategy = .ok strategy) {source : Location}
    (hplain : w.tree.PlainAt template source)
    (hstate : ∀ l e, (checkedTree c w.tree).find c.stateFile = .ok (l, e) → ¬source <+: l)
    (hreliable : (checkedTree c w.tree).CheckReliable output source)
    (hlink : ∀ l link, (checkedTree c w.tree).look output ≠ .ok (l, .link link)) :
    ∃ explicit brand, ∃ changed changed' : Bool, c.explicitBrand? = .ok explicit ∧
      explicit.or (State.brand? w.tree c.stateFile) = some brand.name ∧
      m = w.tree.brandedManifest c.layout brand source ++
        [⟨c.layout.generated strategy, changed, .loader⟩] ∧
      m' = w.tree.brandedManifest c.layout brand source ++
        [⟨c.layout.generated strategy, changed', .loader⟩] ∧
      (m = m' ↔ c.layout.LoaderForeseen brand strategy
        (w.tree.get? (source ++ (c.layout.generated strategy).lexical))) ∧
      (strategy = .selfContained ∨ (∀ bytes, w.tree.get?
          (source ++ (c.layout.generated strategy).lexical) ≠ some (.file bytes)) → m = m') := by
  obtain ⟨hpreview, hasked, htemplate', houtput', hstrategy', hlayout, hstateFile⟩ :=
    preview_of_load hload hload'
  obtain ⟨rfl, hplaced⟩ := RunContext.of_load hload
  have hwork := (mirrors_run c).eq_ok h
  have hwork' := (mirrors_run c').eq_ok h'
  rw [hsame] at hwork'
  obtain ⟨explicit, brand, changed, hexplicit, hname, rfl, hchanged, hadm⟩ := work_record hrooted
    hplaced hreal hnamed hwork htemplate houtput hstrategy hplain hstate hreliable hlink
  obtain ⟨explicit', brand', changed', hexplicit', hname', rfl, hchanged'⟩ :=
    work_record_preview (hlayout ▸ hplaced) hpreview hwork' (htemplate'.trans htemplate)
      (houtput'.trans houtput) (hstrategy'.trans hstrategy) hplain hadm
  -- both runs are about one brand
  obtain rfl := Except.ok.inj (hexplicit.symm.trans (hasked.symm.trans hexplicit'))
  rw [hstateFile, hname] at hname'
  obtain rfl := Brand.eq_of_name (Option.some.inj hname')
  rw [hlayout] at hchanged' ⊢
  have hforeseen : changed = changed' ↔ c.layout.LoaderForeseen brand strategy
      (w.tree.get? (source ++ (c.layout.generated strategy).lexical)) := by
    rw [Layout.LoaderForeseen, ← hchanged, ← hchanged']
    cases changed <;> cases changed' <;> simp
  have hequal : w.tree.brandedManifest c.layout brand source ++
        [⟨c.layout.generated strategy, changed, .loader⟩] =
      w.tree.brandedManifest c.layout brand source ++
        [⟨c.layout.generated strategy, changed', .loader⟩] ↔ changed = changed' := by
    simp
  exact ⟨explicit, brand, changed, changed', hexplicit, hname, rfl, rfl, hequal.trans hforeseen,
    fun hplace => hequal.2 (hforeseen.2 (Layout.loaderForeseen_of hplaced hplace))⟩

/-- A small template, and a link to the directory that it lies in. -/
private def beyondTree : Tree := .putAll ∅
  [(["real"], .directory), (["real", "src"], .directory),
    (["real", "src", "App.php"], .file "<?php\nnamespace WPLite;\n".toUTF8)]

private def seenTree : Tree := beyondTree.put ["link"] (.link (.ofString "/real"))

private theorem plain_beyondTree : beyondTree.Plain := Tree.plain_empty.putAll (by simp) (by decide)

private theorem named_seenTree : seenTree.Named := plain_beyondTree.named.put (by decide)

/-- The link is not in the template. -/
private theorem plainAt_seenTree : seenTree.PlainAt (.ofString "/link/src") ["real", "src"] where
  found := by decide +kernel
  no_link names target := by
    rw [seenTree, Tree.get?_put_of_ne _ (by simp)]
    exact plain_beyondTree.no_link _ target
  isName hget name hname := named_seenTree.isName_of_mem hget name (List.mem_append_right _ hname)

private def seenWorld : World := .typed .empty seenTree

/-- A build by way of the link. -/
private def seenContext (tokens : List String) : RunContext :=
  .inRoot {} (["--prefix=Acme", "--source=link/src", "--output=link/core"] ++ tokens)

/-- The preview tells the two records of the build. -/
theorem run_foreseen_behind_link : ∃ m w' v', run (seenContext []) seenWorld = (.ok m, w') ∧
    run (seenContext ["--dry-run"]) seenWorld = (.ok m, v') ∧ m.length = 2 := by
  have hsettings : Settings.load none seenTree (.ofString "/") = .ok {} := by decide +kernel
  have hload := RunContext.load_inRoot hsettings
    ["--prefix=Acme", "--source=link/src", "--output=link/core"]
  have hload' := RunContext.load_inRoot hsettings
    (["--prefix=Acme", "--source=link/src", "--output=link/core"] ++ ["--dry-run"])
  have htemplate : (seenContext []).templateDir = .ok (.ofString "/link/src") := by decide +kernel
  have houtput : (seenContext []).outputDir = .ok (.ofString "/link/core") := by decide +kernel
  have hstrategy : (seenContext []).strategy = .ok .selfContained := by decide +kernel
  have hfile :
      ((checkedTree (seenContext []) seenTree).find (seenContext []).stateFile).map Prod.fst =
      .ok ["nsbrand.json"] := by decide +kernel
  have hstate : ∀ l e, (checkedTree (seenContext []) seenTree).find (seenContext []).stateFile =
      .ok (l, e) → ¬["real", "src"] <+: l := by
    intro l e hfound
    rw [Tree.eq_of_map_find hfile hfound]
    decide
  have hlook : (checkedTree (seenContext []) seenTree).look (.ofString "/link/core") =
      .error .absent := by decide +kernel
  have hlink : ∀ l link, (checkedTree (seenContext []) seenTree).look (.ofString "/link/core") ≠
      .ok (l, .link link) := by
    rw [hlook]
    exact nofun
  have hreliable : (checkedTree (seenContext []) seenTree).CheckReliable (.ofString "/link/core")
      ["real", "src"] := .of_absent (by decide +kernel) hlook
  have hlength : (run (seenContext []) seenWorld).1.map List.length = .ok 2 := by decide +kernel
  obtain ⟨m, w', h⟩ :=
    exists_of_isOk (x := run (seenContext [])) (s := seenWorld) (by decide +kernel)
  obtain ⟨m', v', h'⟩ :=
    exists_of_isOk (x := run (seenContext ["--dry-run"])) (s := seenWorld) (by decide +kernel)
  obtain ⟨-, -, -, -, -, -, -, -, -, hequal⟩ :=
    run_foreseen hload hload' rfl (by decide +kernel) named_seenTree h rfl h' htemplate houtput
      hstrategy plainAt_seenTree hstate hreliable hlink
  obtain rfl := hequal (Or.inl rfl)
  rw [h] at hlength
  exact ⟨m, w', v', h, h', Except.ok.inj hlength⟩

/-- A template with a link in it to one of its files. -/
private def unseenTree : Tree := .putAll ∅
  [(["src"], .directory), (["src", "App.php"], .file "<?php\nnamespace WPLite;\n".toUTF8),
    (["src", "B.php"], .link (.ofString "/src/App.php"))]

private theorem named_unseenTree : unseenTree.Named := Tree.plain_empty.named.putAll (by decide)

private def unseenWorld : World := .typed .empty unseenTree

/-- The build has a record of a file that its preview does not tell of. -/
theorem exists_unforeseen : ∃ m m' w' v', unseenTree.Named ∧
    RunContext.load none (.ofString "/") (.parse ["--prefix=Acme"]) unseenTree =
      .ok (.inRoot {} ["--prefix=Acme"]) ∧
    RunContext.load none (.ofString "/") (.parse (["--prefix=Acme"] ++ ["--dry-run"])) unseenTree =
      .ok (.inRoot {} ["--prefix=Acme", "--dry-run"]) ∧
    (RunContext.inRoot {} ["--prefix=Acme"]).isPreview = false ∧
    run (.inRoot {} ["--prefix=Acme"]) unseenWorld = (.ok m, w') ∧
    run (.inRoot {} ["--prefix=Acme", "--dry-run"]) unseenWorld = (.ok m', v') ∧
    (⟨.ofString "B.php", true, .normal⟩ : FileRecord) ∈ m ∧
    (⟨.ofString "B.php", true, .normal⟩ : FileRecord) ∉ m' ∧ m ≠ m' := by
  have hmanifest : (run (.inRoot {} ["--prefix=Acme"]) unseenWorld).1 = .ok
      [⟨.ofString "App.php", true, .normal⟩, ⟨.ofString "B.php", true, .normal⟩,
        ⟨.ofString "autoload.php", true, .loader⟩] := by decide +kernel
  have hmanifest' : (run (.inRoot {} ["--prefix=Acme", "--dry-run"]) unseenWorld).1 = .ok
      [⟨.ofString "App.php", true, .normal⟩, ⟨.ofString "autoload.php", true, .loader⟩] := by
    decide +kernel
  have hsettings : Settings.load none unseenTree (.ofString "/") = .ok {} := by decide +kernel
  obtain ⟨m, w', h⟩ := exists_of_isOk (x := run (.inRoot {} ["--prefix=Acme"])) (s := unseenWorld)
    (by rw [hmanifest]; rfl)
  obtain ⟨m', v', h'⟩ := exists_of_isOk (x := run (.inRoot {} ["--prefix=Acme", "--dry-run"]))
    (s := unseenWorld) (by rw [hmanifest']; rfl)
  rw [h] at hmanifest
  rw [h'] at hmanifest'
  obtain rfl := Except.ok.inj hmanifest
  obtain rfl := Except.ok.inj hmanifest'
  exact ⟨_, _, w', v', named_unseenTree, RunContext.load_inRoot hsettings _,
    RunContext.load_inRoot hsettings _, by decide +kernel, h, h', by decide +kernel,
    by decide +kernel, by decide +kernel⟩

end Build

end Branding
