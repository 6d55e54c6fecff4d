import Branding.Proofs.Run.Build
import Branding.Proofs.Run.Preview

/-!
# The records of a build

A build has a record of every source that branding changes, and then one of its loader. Branding
comes to every source once, so a path has two records only where the loader takes the place of a
source that was changed.

With the loader of the template this does not happen, since branding passes over it. But the
external strategy puts its loader somewhere else, and branding does not pass over what the template
has there. Such a file is counted twice by the summary, once as a source and once as the loader.

## Main definitions

* `Manifest.paths`, `Manifest.changedFiles` — the files that a run has changed
* `Layout.Overwrites` — the loader takes the place of a source that branding changes
* `Build.Summarised` — the last that is shown is the summary

## Main results

* `Build.brandTree_records` — the sources, and then the loader
* `Build.ends_run` — a build that succeeds shows its summary in the end
* `Build.run_records` — a whole build
* `Build.exists_recorded_twice` — a build that has two records of one file
-/

namespace Branding

/-! ### Records and files -/

namespace Manifest

variable {m sources : Manifest} {record : FileRecord}

/-- The paths of the files that have records, as often as they have one. -/
def paths (m : Manifest) : List Path := m.map (·.path)

/-- How many files a run has changed, whatever number of records they have. -/
def changedFiles (m : Manifest) : Nat := m.changed.paths.toFinset.card

theorem paths_append (m n : Manifest) : paths (m ++ n) = m.paths ++ n.paths := List.map_append ..

/-- A record more leaves no path with two, unless its own path has one. -/
theorem nodup_paths_concat (h : sources.paths.Nodup) :
    (paths (sources ++ [record])).Nodup ↔ ∀ r ∈ sources, r.path ≠ record.path := by
  have hone : (paths [record]).Nodup := List.nodup_singleton _
  rw [paths_append, List.nodup_append, and_iff_right h, and_iff_right hone]
  simp [paths]

theorem changedFiles_of_nodup (h : m.changed.paths.Nodup) : m.changedFiles = m.changed.length := by
  rw [changedFiles, List.toFinset_card_of_nodup h, paths, List.length_map]

/-- There are as many records of changed files as there are changed files, or one more where the
last is the record of a file that has one already. -/
theorem length_changed_concat (hall : ∀ r ∈ sources, r.changed = true) (h : sources.paths.Nodup) :
    (changed (sources ++ [record])).length = changedFiles (sources ++ [record]) +
      if (changed (sources ++ [record])).paths.Nodup then 0 else 1 := by
  by_cases hnodup : (changed (sources ++ [record])).paths.Nodup
  · rw [if_pos hnodup, changedFiles_of_nodup hnodup, Nat.add_zero]
  have hsources : changed sources = sources := List.filter_eq_self.2 hall
  rw [if_neg hnodup, changedFiles]
  rw [changed_append, hsources] at hnodup ⊢
  cases hchanged : record.changed with
  | false =>
    have hnone : changed [record] = [] := List.filter_eq_nil_iff.2 (by simp [hchanged])
    rw [hnone, List.append_nil] at hnodup
    exact absurd h hnodup
  | true =>
    have hone : changed [record] = [record] := List.filter_eq_self.2 (by simp [hchanged])
    rw [hone, nodup_paths_concat h] at hnodup
    -- the last path is among the others
    have hmem : record.path ∈ sources.paths.toFinset := by
      rw [List.mem_toFinset, paths, List.mem_map]
      simpa using hnodup
    have hsame : (paths (sources ++ [record])).toFinset = sources.paths.toFinset := by
      rw [paths_append, List.toFinset_append, Finset.union_eq_left]
      simpa [paths] using hmem
    rw [hone, hsame, List.toFinset_card_of_nodup h, paths, List.length_map, List.length_append,
      List.length_singleton]

end Manifest

/-! ### The sources and the loader -/

namespace Layout

variable {layout : Layout} {brand : Brand} {strategy : LoaderStrategy} {t t' : Tree}
  {l l' : Location}

/-- The loader that is generated takes the place of a source that branding changes. -/
def Overwrites (layout : Layout) (brand : Brand) (strategy : LoaderStrategy) (t : Tree)
    (l : Location) :
    Prop :=
  ∃ role text, layout.role? (layout.generated strategy) = some role ∧
    t.get? (l ++ (layout.generated strategy).lexical) = some (.file text.toUTF8) ∧
      brandedText brand role text ≠ text

theorem Overwrites.congr (h : ∀ names, t.get? (l ++ names) = t'.get? (l' ++ names)) :
    layout.Overwrites brand strategy t l ↔ layout.Overwrites brand strategy t' l' := by
  rw [Overwrites, Overwrites, h]

/-- The loader of the template is no source. -/
theorem not_overwrites (hplaced : layout.IsPlaced)
    (h : strategy = .selfContained ∨ layout.loaderFile = layout.generated .external) :
    ¬layout.Overwrites brand strategy t l := by
  have hloader : layout.generated strategy = layout.loaderFile := by
    rcases h with rfl | h
    · rfl
    · cases strategy with
      | selfContained => rfl
      | external => exact h.symm
  rintro ⟨role, -, hrole, -⟩
  rw [hloader, ← hplaced.loaderFile.ofNames_lexical,
    hplaced.role?_ofNames fun _ => Path.isName_of_mem_lexical, if_pos rfl] at hrole
  cases hrole

/-- The place of the loader has a record as a source where the loader overwrites one. -/
theorem exists_record_iff (hplaced : layout.IsPlaced) :
    (∃ record ∈ t.brandedManifest layout brand l, record.path = layout.generated strategy) ↔
      layout.Overwrites brand strategy t l := by
  have hplace := hplaced.generated strategy
  constructor
  · rintro ⟨record, hmem, hpath⟩
    obtain ⟨names, bytes, hne, hbytes, hrecord⟩ := Tree.mem_brandedManifest.1 hmem
    obtain ⟨role, -, hrole, hchanged, rfl⟩ := mem_brandedRecords.1 hrecord
    obtain ⟨text, rfl, htext⟩ := brandedByRole_ne_iff.1 hchanged
    have hpath : Path.ofNames false names = layout.generated strategy := hpath
    obtain rfl : names = (layout.generated strategy).lexical := by
      rw [← hplace.ofNames_lexical, Path.ofNames_of_ne_nil hne,
        Path.ofNames_of_ne_nil hplace.lexical_ne] at hpath
      exact (Path.mk.inj hpath).2
    exact ⟨role, text, hpath ▸ hrole, hbytes, htext⟩
  · rintro ⟨role, text, hrole, hbytes, htext⟩
    -- where the strategy leaves the loader in its place, that has no role
    have hsource : (layout.generated strategy).isSource = true := by
      cases strategy with
      | external =>
        rw [generated]
        decide +kernel
      | selfContained =>
        exact absurd ⟨role, text, hrole, hbytes, htext⟩ (not_overwrites hplaced (.inl rfl))
    refine ⟨⟨layout.generated strategy, true, role⟩, ?_, rfl⟩
    refine Tree.mem_brandedManifest.2 ⟨_, _, hplace.lexical_ne, hbytes,
      mem_brandedRecords.2 ⟨role, ?_⟩⟩
    rw [hplace.ofNames_lexical]
    exact ⟨hsource, hrole, brandedByRole_ne_iff.2 ⟨text, rfl, htext⟩, rfl⟩

end Layout

namespace Build

/-! ### The summary -/

variable {template output root : Path} {t t' : Tree} {l : Location} {layout : Layout}
  {brand : Brand} {strategy : LoaderStrategy} {preview : Bool} {m : Manifest}

/-- The last that is shown is the summary of the records. -/
def Summarised (preview : Bool) (m : Manifest) (w : World) : Prop :=
  ∃ (shown : List Span) (report : Report), report.mode = ⟨.build, preview⟩ ∧
    w.console.output = shown ++ (report.summary m).flatMap Line.spans

theorem ends_summary {report : Report} (h : report.mode = ⟨.build, preview⟩) (m : Manifest) :
    Action.Ends (Summarised preview) (do
      Action.write (report.summary m)
      return m) := by
  intro w a w' hrun
  obtain ⟨u, w₁, hwrite, hend⟩ := bind_eq_ok.1 hrun
  obtain ⟨rfl, rfl⟩ := pure_eq_ok.1 hend
  rw [← modify_eq_ok.1 hwrite]
  exact ⟨w.console.output, report, h, rfl⟩

open Branding.Action in
/-- A build that succeeds shows its summary in the end. -/
theorem ends_run (c : RunContext) : Ends (Summarised c.isPreview) (run c) := by
  unfold run
  refine .bind fun explicit => .bind fun resolution => .bind fun template => .bind fun output => ?_
  refine .bind fun strategy => .bind fun apart => .bind fun _ => .bind fun _ => ?_
  extract_lets built
  have hbuilt : ∀ u, Ends (Summarised c.isPreview) (built u) := by
    intro u
    refine .bind fun _ => .bind fun root => .bind fun _ => .bind fun m => .bind fun _ => ?_
    have hend := fun (report : Report) (h : report.mode = ⟨.build, c.isPreview⟩) => ends_summary h m
    exact .ite (.bind fun _ => .bind fun _ => hend _ rfl) (hend _ rfl)
  exact .ite (.bind hbuilt) (hbuilt ())

/-! ### The records -/

/-- The records of a tree that was branded are those of its sources and that of the loader. -/
theorem brandTree_records (hr : t.PlainAt root l)
    (h : brandTree preview layout brand strategy root t = (.ok m, t')) :
    ∃ changed : Bool, m = t.brandedManifest layout brand l ++
      [⟨layout.generated strategy, changed, .loader⟩] := by
  obtain ⟨sources, t₁, hsources, hrest⟩ := bind_eq_ok.1 h
  obtain ⟨loader, t₂, hloader, hend⟩ := bind_eq_ok.1 hrest
  obtain ⟨rfl, -⟩ := pure_eq_ok.1 hend
  obtain ⟨rfl, -⟩ := Files.brandSources_eq_ok hr (adapt_eq_ok.1 hsources)
  obtain ⟨changed, rfl⟩ := Files.generateLoader_eq_ok (adapt_eq_ok.1 hloader)
  exact ⟨changed, rfl⟩

/-- In a preview the template itself is looked through. -/
theorem refill_preview (h : refill true template output t = (.ok root, t')) :
    root = template ∧ t' = t := by
  have hrest := get_bind_eq_ok.1 h
  split at hrest
  · obtain ⟨removal, s, hclean, hend⟩ := bind_eq_ok.1 hrest
    obtain rfl := (Files.moves_clean_preview output).of_eq_ok hclean
    obtain ⟨rfl, rfl⟩ := pure_eq_ok.1 hend
    exact ⟨rfl, rfl⟩
  · obtain ⟨rfl, rfl⟩ := pure_eq_ok.1 hrest
    exact ⟨rfl, rfl⟩

/-- What is to be branded is a directory without links, also where the path of the output takes
names back. -/
theorem refill_plainAt (ht : t.Plain) (htemplate : t.isDirectory template = true)
    (hne : output.text ≠ "") (h : refill preview template output t = (.ok root, t')) :
    t'.PlainAt root root.lexical := by
  cases preview with
  | true =>
    obtain ⟨rfl, rfl⟩ := refill_preview h
    exact ht.plainAt htemplate
  | false =>
    have hfill : ∀ {s : Tree}, s.Plain → fill template output s = (.ok root, t') →
        t'.PlainAt root root.lexical := by
      intro s hs hrun
      obtain ⟨u, s', hcopy, hend⟩ := bind_eq_ok.1 hrun
      obtain ⟨rfl, rfl⟩ := pure_eq_ok.1 hend
      obtain ⟨hs', hdir⟩ := Files.copyDirectory_plain hs hne (adapt_eq_ok.1 hcopy)
      exact hs'.plainAt hdir
    have hrest := get_bind_eq_ok.1 h
    split at hrest
    next hhas =>
      obtain ⟨removal, s, hclean, hfilled⟩ := bind_eq_ok.1 hrest
      exact hfill (Files.clean_get? ht hhas hclean).1 hfilled
    next => exact hfill ht hrest

/-- What a build does, in a tree without links, before its files are branded, and the records of
that. -/
theorem records_of_work {c : RunContext} (hrooted : c.workingDir.rooted = true) (hplain : t.Plain)
    (h : work c t = (.ok m, t')) (htemplate : c.templateDir = .ok template)
    (houtput : c.outputDir = .ok output) (hstrategy : c.strategy = .ok strategy) :
    ∃ explicit brand, ∃ (root : Path) (t₁ t₂ : Tree) (changed : Bool),
      c.explicitBrand? = .ok explicit ∧
      explicit.or (State.brand? t c.stateFile) = some brand.name ∧
      t₁.Plain ∧ t₁.checkApart template output = .ok () ∧
      refill c.isPreview template output t₁ = (.ok root, t₂) ∧
      brandTree c.isPreview c.layout brand strategy root t₂ = (.ok m, t') ∧
      m = t₂.brandedManifest c.layout brand root.lexical ++
        [⟨c.layout.generated strategy, changed, .loader⟩] := by
  obtain ⟨explicit, resolution, root, t₁, t₂, hexplicit, hresolve, hcheck, hrefill, hbrand⟩ :=
    steps_of_work h htemplate houtput hstrategy
  have houtputRooted := RunContext.rooted_outputDir hrooted houtput
  obtain ⟨hname, hplain₁, -⟩ :=
    State.resolve_eq_ok (P := fun _ => True) hplain (fun _ _ _ _ => trivial) hresolve
  obtain ⟨source, hfind, -⟩ := Tree.checkApart_eq_ok houtputRooted hcheck
  have hr := refill_plainAt hplain₁ (Tree.isDirectory_iff.2 ⟨_, hfind⟩)
    (Path.text_ne_of_rooted houtputRooted) hrefill
  obtain ⟨changed, hm⟩ := brandTree_records hr hbrand
  exact ⟨explicit, resolution.brand, root, t₁, t₂, changed, hexplicit, hname, hplain₁, hcheck,
    hrefill, hbrand, hm⟩

/-- What is branded is what the template holds when the build is done. -/
theorem branded_eq_template (hrooted : output.rooted = true) (hplaced : layout.IsPlaced)
    (ht : t.Plain) (hcheck : t.checkApart template output = .ok ())
    (hup : preview = true ∨ ".." ∉ output.segments) {t₁ : Tree}
    (hrefill : refill preview template output t = (.ok root, t₁))
    (hbrand : brandTree preview layout brand strategy root t₁ = (.ok m, t')) (names : List String) :
    t₁.get? (root.lexical ++ names) = t'.get? (template.lexical ++ names) := by
  cases preview with
  | true =>
    obtain ⟨rfl, rfl⟩ := refill_preview hrefill
    rw [(moves_brandTree_preview layout brand strategy root).of_eq_ok hbrand]
  | false =>
    obtain ⟨rfl, hapart, hr, hkept, hcopied, hadm⟩ :=
      refill_copied ht hrooted (hup.resolve_left (by simp)) hcheck hrefill
    rw [(brandTree_get? hr hrooted hplaced hadm hbrand).2 _ (hapart.symm.not_prefix_append names),
      hkept.get?_append, hcopied]

/-- The records of a build that succeeds name a path twice just where they have the place of the
loader as that of a source, too. That does not happen where the loader of the template is in this
place. Where the path of the output takes nothing back it happens just if the template has a source
there that branding changes. The last that is shown is the number of the changed files, or one more
if one is named twice. -/
theorem run_records {home : Option String} {workingDir : Path} {options : Options} {t : Tree}
    {c : RunContext} (hload : RunContext.load home workingDir options t = .ok c)
    (hrooted : workingDir.rooted = true) {w w' : World} (hplain : w.tree.Plain)
    (h : run c w = (.ok m, w')) (htemplate : c.templateDir = .ok template)
    (houtput : c.outputDir = .ok output) (hstrategy : c.strategy = .ok strategy) :
    (m.paths.Nodup ↔
      ∀ record ∈ m, record.path = c.layout.generated strategy → record.role = .loader) ∧
    (strategy = .selfContained ∨ c.layout.loaderFile = c.layout.generated .external →
      m.paths.Nodup) ∧
    (c.isPreview = true ∨ .up ∉ output.components →
      ∃ explicit brand, c.explicitBrand? = .ok explicit ∧
        explicit.or (State.brand? w.tree c.stateFile) = some brand.name ∧
        (m.paths.Nodup ↔ ¬c.layout.Overwrites brand strategy w'.tree template.lexical)) ∧
    ∃ (shown : List Span) (report : Report), report.mode = ⟨.build, c.isPreview⟩ ∧
      w'.console.output = shown ++ (report.summary m).flatMap Line.spans ∧
      report.summary m = [.blank, .rule] ++
        report.outcome (m.changedFiles + if m.changed.paths.Nodup then 0 else 1) ++
        [.blank, .rule] ++ report.followUp := by
  obtain ⟨rfl, hplaced⟩ := RunContext.of_load hload
  rw [Path.up_mem_components_iff]
  obtain ⟨explicit, brand, root, t₁, t₂, changed, hexplicit, hname, hplain₁, hcheck, hrefill,
    hbrand, hm⟩ :=
    records_of_work hrooted hplain ((mirrors_run c).eq_ok h) htemplate houtput hstrategy
  have honce := Tree.nodup_brandedManifest c.layout brand t₂ root.lexical
  have hnodup : m.paths.Nodup ↔ ¬c.layout.Overwrites brand strategy t₂ root.lexical := by
    rw [hm, Manifest.nodup_paths_concat honce, ← Layout.exists_record_iff hplaced]
    simp
  refine ⟨?_, fun hloader => hnodup.2 (Layout.not_overwrites hplaced hloader), fun hup => ?_, ?_⟩
  · rw [hm, Manifest.nodup_paths_concat honce, List.forall_mem_append, List.forall_mem_singleton]
    refine ⟨fun hne => ⟨fun r hr hpath => absurd hpath (hne r hr), fun _ => rfl⟩, ?_⟩
    exact fun hroles r hr hpath => (Tree.of_mem_brandedManifest hr).2 (hroles.1 r hr hpath)
  · refine ⟨explicit, brand, hexplicit, hname,
      hnodup.trans (not_congr (Layout.Overwrites.congr ?_))⟩
    exact branded_eq_template (RunContext.rooted_outputDir hrooted houtput) hplaced hplain₁ hcheck
      hup
      hrefill hbrand
  · obtain ⟨shown, report, hmode, hshown⟩ := ends_run c _ _ _ h
    refine ⟨shown, report, hmode, hshown, ?_⟩
    have hlisting : report.listing m = [] := by
      rw [Report.listing, hmode, if_neg (by simp)]
    rw [Report.summary, hlisting, List.append_nil, hm,
      Manifest.length_changed_concat (fun r hr => (Tree.of_mem_brandedManifest hr).1) honce]

/-- A template that has a source of its own where the external strategy puts its loader. -/
private def helpersTree : Tree := .putAll ∅
  [(["src"], .directory), (["src", "App.php"], .file "<?php\nnamespace WPLite;\n".toUTF8),
    (["src", "helpers.php"], .file "<?php\nnamespace WPLite;\n".toUTF8)]

private theorem plain_helpersTree : helpersTree.Plain :=
  Tree.plain_empty.putAll (by simp) (by decide)

private def helpersWorld : World := .typed .empty helpersTree

/-- With a loader of its own the build names each of its files once. -/
theorem run_records_once : ∃ m w',
    run (.inRoot {} ["--prefix=Acme"]) helpersWorld = (.ok m, w') ∧ m.paths.Nodup := by
  obtain ⟨m, w', hrun⟩ := exists_of_isOk (x := run (.inRoot {} ["--prefix=Acme"]))
    (s := helpersWorld) (by decide +kernel)
  have hload : RunContext.load none (.ofString "/") (.parse ["--prefix=Acme"]) helpersTree =
      .ok (.inRoot {} ["--prefix=Acme"]) := RunContext.load_inRoot (by decide +kernel) _
  have htemplate : (RunContext.inRoot {} ["--prefix=Acme"]).templateDir =
      .ok (.ofString "/src") := by decide +kernel
  have houtput : (RunContext.inRoot {} ["--prefix=Acme"]).outputDir =
      .ok (.ofString "/core") := by decide +kernel
  have hstrategy : (RunContext.inRoot {} ["--prefix=Acme"]).strategy = .ok .selfContained := by
    decide +kernel
  obtain ⟨-, hloader, -⟩ :=
    run_records hload rfl plain_helpersTree hrun htemplate houtput hstrategy
  exact ⟨m, w', hrun, hloader (.inl rfl)⟩

/-- With the external strategy it names one of its two files twice. -/
theorem exists_recorded_twice : ∃ m w',
    RunContext.load none (.ofString "/") (.parse ["--prefix=Acme", "--loader=external"])
      helpersTree = .ok (.inRoot {} ["--prefix=Acme", "--loader=external"]) ∧
    helpersTree.Plain ∧
    run (.inRoot {} ["--prefix=Acme", "--loader=external"]) helpersWorld = (.ok m, w') ∧
    ¬m.paths.Nodup ∧ m.changed.length = 3 ∧ m.changedFiles = 2 := by
  have hresult : (run (.inRoot {} ["--prefix=Acme", "--loader=external"]) helpersWorld).1 = .ok
      [⟨.ofString "App.php", true, .normal⟩, ⟨.ofString "helpers.php", true, .normal⟩,
        ⟨.ofString "helpers.php", true, .loader⟩] := by decide +kernel
  cases hrun : run (.inRoot {} ["--prefix=Acme", "--loader=external"]) helpersWorld with
  | mk result w' =>
    rw [hrun] at hresult
    obtain rfl : result = .ok _ := hresult
    exact ⟨_, w', RunContext.load_inRoot (by decide +kernel) _, plain_helpersTree, rfl,
      by decide +kernel, by decide +kernel, by decide +kernel⟩

end Build

end Branding
