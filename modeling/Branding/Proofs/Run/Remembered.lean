import Branding.Proofs.Remembered
import Branding.Proofs.Run.Untouched

/-!
# The brand after a build

The brand is remembered before the output is emptied, so a state file that lies in the output does
not outlive the build that has written it. It does where its path still leads to it when everything
in the output is gone: nothing else that was there is taken away or becomes different.

## Main results

* `Build.brand?_after_run` — the brand of a build is remembered afterwards
-/

namespace Branding

namespace State

variable {t t' : Tree} {file : Path}

/-- A brand that is asked for in earnest is remembered. -/
theorem remember_of_resolve {raw : String} {resolution : Resolution}
    (h : resolve (some raw) file true t = (.ok resolution, t')) :
    resolution.brand.name = raw ∧ ∃ u, remember file resolution.brand t = (.ok u, t') := by
  obtain ⟨brand, t₁, hbrand, hrest⟩ := bind_eq_ok.1 h
  obtain ⟨hname, rfl⟩ := brandOf_eq_ok hbrand
  obtain ⟨u, t₂, hremember, hend⟩ := bind_eq_ok.1 hrest
  obtain ⟨rfl, rfl⟩ := pure_eq_ok.1 hend
  exact ⟨hname, u, hremember⟩

end State

namespace Build

variable {template output : Path} {t t' : Tree}

/-- A build that succeeds has found its template and its strategy. -/
theorem exists_template_of_work {c : RunContext} {m : Manifest} (h : work c t = (.ok m, t')) :
    (∃ template, c.templateDir = .ok template) ∧ ∃ strategy, c.strategy = .ok strategy := by
  obtain ⟨explicit, -, h⟩ := Files.exists_of_ofResult_bind h
  obtain ⟨resolution, t₁, -, h⟩ := bind_eq_ok.1 h
  obtain ⟨template, htemplate, h⟩ := Files.exists_of_ofResult_bind h
  obtain ⟨output, -, h⟩ := Files.exists_of_ofResult_bind h
  obtain ⟨strategy, hstrategy, -⟩ := Files.exists_of_ofResult_bind h
  exact ⟨⟨template, htemplate⟩, strategy, hstrategy⟩

/-- The brand that a build was asked for is remembered afterwards, so that a run that asks for none
gets it, where the path of the state file does not go through the output. Where the tree has links,
the check of the output has to be reliable for that. -/
theorem brand?_after_run {home : Option String} {workingDir : Path} {options : Options} {t : Tree}
    {c : RunContext} (hload : RunContext.load home workingDir options t = .ok c)
    (hrooted : workingDir.rooted = true) (hreal : c.isPreview = false) {w w' : World}
    (hnamed : w.tree.Named) {m : Manifest} (h : run c w = (.ok m, w')) {template output : Path}
    (htemplate : c.templateDir = .ok template) (houtput : c.outputDir = .ok output)
    {source target : Location}
    (hfind : (checkedTree c w.tree).find template = .ok (source, .directory))
    (hsafe : w.tree.Plain ∨ (checkedTree c w.tree).CheckReliable output source)
    (htarget : w'.tree.find output = .ok (target, .directory))
    (hpast : ((checkedTree c w.tree).without target).isFile c.stateFile = true)
    {raw : String} (hexplicit : c.explicitBrand? = .ok (some raw)) :
    State.brand? w'.tree c.stateFile = some raw ∧ ∃ brand : Brand, brand.name = raw ∧
      ∀ persist, State.resolve none c.stateFile persist w'.tree =
        (.ok ⟨brand, .persisted, false⟩, w'.tree) := by
  obtain ⟨rfl, hplaced⟩ := RunContext.of_load hload
  have hwork := (mirrors_run c).eq_ok h
  obtain ⟨-, strategy, hstrategy⟩ := exists_template_of_work hwork
  obtain ⟨explicit, resolution, root, t₁, t₂, hexplicit', hresolve, hcheck, hrefill, hbrand⟩ :=
    steps_of_work hwork htemplate houtput hstrategy
  obtain rfl := Except.ok.inj (hexplicit.symm.trans hexplicit')
  have hchecked : checkedTree c w.tree = t₁ := checkedTree_of_resolve hexplicit hresolve
  have hnamed₁ := named_checkedTree c hnamed
  have hsafe₁ := hsafe.imp_left (plain_checkedTree c)
  rw [hchecked] at hfind hpast hnamed₁ hsafe₁
  rw [hreal] at hresolve hrefill hbrand
  obtain ⟨rfl, u, hremember⟩ := State.remember_of_resolve hresolve
  have houtputRooted := RunContext.rooted_outputDir hrooted houtput
  obtain ⟨target', -, hkept, hfilled⟩ := exists_refilled hnamed₁ houtputRooted hfind hcheck hsafe₁
  obtain ⟨rfl, hr⟩ := hfilled hrefill
  obtain ⟨hr', helse⟩ := (confined_brandTree houtputRooted hplaced _ _ _).of_eq_ok hbrand hr
  -- the output is where it was filled
  obtain rfl : target' = target := by
    have hfound := hr'.found
    rw [htarget] at hfound
    cases hfound
    rfl
  have hwithin : (t₁.without target').Within w'.tree := by
    refine Tree.without_within fun {n e} hn he => ?_
    have hkept := hkept hn he
    rw [hrefill] at hkept
    exact (helse n hn).trans hkept
  have hbefore : (t₁.without target').Within t₁ := Tree.without_within fun _ he => he
  obtain ⟨l, bytes, hfile⟩ := Tree.isFile_iff.1 hpast
  obtain ⟨l', hremembered⟩ := State.find_of_remember hremember
  obtain ⟨-, hbytes⟩ := Prod.mk.inj (Except.ok.inj (hremembered.symm.trans (hbefore.find hfile)))
  rw [← Entry.file.inj hbytes] at hfile
  have hafter := State.brand?_of_found (hwithin.find hfile)
  exact ⟨hafter, resolution.brand, rfl, State.resolve_none hafter⟩

/-- A small template, and a link to the directory that the output is to lie in. -/
private def shelfTree : Tree := .putAll ∅
  [(["src"], .directory), (["src", "App.php"], .file "<?php\nnamespace WPLite;\n".toUTF8),
    (["shelf"], .directory), (["link"], .link (.ofString "/shelf"))]

private theorem named_shelfTree : shelfTree.Named := Tree.plain_empty.named.putAll (by decide)

private def shelfWorld : World := .typed .empty shelfTree

/-- A build with its output behind the link. -/
private def shelfContext : RunContext := .inRoot {} ["--prefix=Acme", "--output=link/core"]

/-- The output lies behind a link, and the state file does not lie there. -/
theorem brand?_after_run_behind_link : ∃ m w', run shelfContext shelfWorld = (.ok m, w') ∧
    State.brand? w'.tree (.ofString "/nsbrand.json") = some "Acme" := by
  have hload : RunContext.load none (.ofString "/") (.parse ["--prefix=Acme", "--output=link/core"])
      shelfTree = .ok shelfContext := RunContext.load_inRoot (by decide +kernel) _
  have htemplate : shelfContext.templateDir = .ok (.ofString "/src") := by decide +kernel
  have houtput : shelfContext.outputDir = .ok (.ofString "/link/core") := by decide +kernel
  have hstate : shelfContext.stateFile = .ofString "/nsbrand.json" := by decide +kernel
  have hexplicit : shelfContext.explicitBrand? = .ok (some "Acme") := by decide +kernel
  have hfind : (checkedTree shelfContext shelfTree).find (.ofString "/src") =
      .ok (["src"], .directory) := by decide +kernel
  have hreliable : (checkedTree shelfContext shelfTree).CheckReliable (.ofString "/link/core")
      ["src"] := .of_absent (r := .absent) (by decide +kernel) (by decide +kernel)
  have hresult : (run shelfContext shelfWorld).1.isOk = true ∧
      (run shelfContext shelfWorld).2.tree.find (.ofString "/link/core") =
        .ok (["shelf", "core"], .directory) := by decide +kernel
  obtain ⟨m, w', hrun⟩ := exists_of_isOk hresult.1
  rw [hrun] at hresult
  obtain ⟨hbrand, -⟩ := brand?_after_run (w := shelfWorld) hload rfl (by decide +kernel)
    named_shelfTree hrun htemplate houtput hfind (Or.inr hreliable) hresult.2 (by decide +kernel)
    hexplicit
  exact ⟨m, w', hrun, hstate ▸ hbrand⟩

/-- A small template, and settings by which the brand is remembered in the output. -/
private def innerTree : Tree := .putAll ∅
  [(["src"], .directory), (["src", "App.php"], .file "<?php\nnamespace WPLite;\n".toUTF8),
    (["nsbrand.toml"], .file "state_file = \"core/nsbrand.json\"\n".toUTF8)]

private def innerWorld : World := .typed .empty innerTree

/-- A run with these settings. -/
private def innerContext (tokens : List String) : RunContext :=
  .inRoot { stateFile := "core/nsbrand.json" } tokens

/-- The build succeeds, and the brand that it has remembered is gone, so the next build has none. -/
theorem exists_brand_forgotten : ∃ m w',
    RunContext.load none (.ofString "/") (.parse ["--prefix=Acme"]) innerTree =
      .ok (innerContext ["--prefix=Acme"]) ∧
    (innerContext ["--prefix=Acme"]).isPreview = false ∧
    (innerContext ["--prefix=Acme"]).explicitBrand? = .ok (some "Acme") ∧
    run (innerContext ["--prefix=Acme"]) innerWorld = (.ok m, w') ∧
    State.brand? w'.tree (innerContext ["--prefix=Acme"]).stateFile = none ∧
    RunContext.load none (.ofString "/") (.parse []) w'.tree = .ok (innerContext []) ∧
    (run (innerContext []) w').1 = .error (.of .noBrand) := by
  have hresult : (run (innerContext ["--prefix=Acme"]) innerWorld).1.isOk = true ∧
      State.brand? (run (innerContext ["--prefix=Acme"]) innerWorld).2.tree
        (innerContext ["--prefix=Acme"]).stateFile = none ∧
      RunContext.load none (.ofString "/") (.parse [])
        (run (innerContext ["--prefix=Acme"]) innerWorld).2.tree = .ok (innerContext []) ∧
      (run (innerContext []) (run (innerContext ["--prefix=Acme"]) innerWorld).2).1 =
        .error (.of .noBrand) := by
    decide +kernel
  obtain ⟨m, w', hrun⟩ := exists_of_isOk hresult.1
  rw [hrun] at hresult
  obtain ⟨-, hforgotten, hload, hnext⟩ := hresult
  exact ⟨m, w', by decide +kernel, by decide +kernel, by decide +kernel, hrun, hforgotten, hload,
    hnext⟩

end Build

end Branding
