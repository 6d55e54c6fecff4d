import Branding.Proofs.Files.Loader
import Branding.Proofs.Run.Prepare
import Branding.Proofs.State

/-!
# A build leaves its template alone

Every step of a build that writes is confined: what is emptied is apart from the template, and so is
the place where the output is made, and whatever is copied, branded or generated after that stays in
there. A step may fail, and the whole with it, at any point.

All this rests on the check of the output, and the check looks at the files once, when the brand has
been remembered already. Without links it can always be relied on, though an output whose path takes
names back may leave directories in the template on its way. With links the template may be lost.

## Main definitions

* `Build.checkedTree` — the files as the check finds them

## Main results

* `Build.after_work` — what is true after every step of a build
* `Build.work_keeps`, `Build.work_keepsBelow` — the steps after the check
* `Build.run_template_kept` — a whole build
-/

namespace Branding

namespace Build

variable {template output : Path} {source : Location} {c : RunContext} {t : Tree}

/-- The files as the check of the output finds them: the brand that is asked for has been
remembered. -/
def checkedTree (c : RunContext) (t : Tree) : Tree :=
  match c.explicitBrand? with
  | .ok explicit => (State.resolve explicit c.stateFile (!c.isPreview) t).2
  | .error _ => t

theorem named_checkedTree (c : RunContext) (ht : t.Named) : (checkedTree c t).Named := by
  unfold checkedTree
  cases c.explicitBrand? with
  | ok explicit => exact State.named_resolve explicit c.stateFile _ ht
  | error fault => exact ht

theorem plain_checkedTree (c : RunContext) (ht : t.Plain) : (checkedTree c t).Plain := by
  unfold checkedTree
  cases c.explicitBrand? with
  | ok explicit => exact State.plain_resolve explicit c.stateFile _ ht
  | error fault => exact ht

theorem keepsWays_checkedTree (c : RunContext) (t : Tree) : t.KeepsWays (checkedTree c t) := by
  unfold checkedTree
  cases c.explicitBrand? with
  | ok explicit => exact State.keepsWays_resolve explicit c.stateFile _ t
  | error fault => exact Std.Refl.refl t

/-- Before the check nothing becomes different but the state file, and directories may be new. -/
theorem checkedTree_elsewhere (c : RunContext) (t : Tree) (l : Location) :
    (checkedTree c t).get? l = t.get? l ∨
      t.get? l = none ∧ (checkedTree c t).get? l = some .directory ∨
        ∃ e, (checkedTree c t).find c.stateFile = .ok (l, e) := by
  unfold checkedTree
  cases c.explicitBrand? with
  | ok explicit => exact State.resolve_elsewhere explicit c.stateFile _ l
  | error fault => exact Or.inl rfl

/-- Where the state file does not lie, at most directories are new. -/
theorem checkedTree_below (c : RunContext) (t : Tree)
    (hstate : ∀ l e, (checkedTree c t).find c.stateFile = .ok (l, e) → ¬source <+: l) {l : Location}
    (hl : source <+: l) : (checkedTree c t).get? l = t.get? l ∨
      t.get? l = none ∧ (checkedTree c t).get? l = some .directory := by
  rcases checkedTree_elsewhere c t l with hsame | hnew | ⟨e, hfile⟩
  · exact Or.inl hsame
  · exact Or.inr hnew
  · exact absurd hl (hstate l e hfile)

theorem checkedTree_of_resolve {explicit : Option String} {result : Except Fault Resolution}
    {t' : Tree} (hexplicit : c.explicitBrand? = .ok explicit)
    (h : State.resolve explicit c.stateFile (!c.isPreview) t = (result, t')) :
    checkedTree c t = t' := by
  unfold checkedTree
  rw [hexplicit]
  exact congrArg Prod.snd h

theorem confined_brandTree {layout : Layout} {root : Path} {l : Location}
    (hrooted : root.rooted = true) (hplaced : layout.IsPlaced) (preview : Bool) (brand : Brand)
    (strategy : LoaderStrategy) :
    Moves (Tree.Confined root l) (brandTree preview layout brand strategy root) := by
  refine Moves.bind (Moves.adapt (Files.confined_brandSources hrooted) _) fun sources => ?_
  exact Moves.bind (Moves.adapt (Files.confined_generateLoader hrooted hplaced) _) fun _ =>
    Moves.pure _

/-- What is true when the output is checked, and when it has been filled again, and when that has
been branded, is true after all that a build does, whatever comes of it. -/
theorem after_work {P : Tree → Prop} (hreal : c.isPreview = false)
    (htemplate : c.templateDir = .ok template) (houtput : c.outputDir = .ok output)
    (hchecked : P (checkedTree c t))
    (hrefill : (checkedTree c t).checkApart template output = .ok () →
      P (refill false template output (checkedTree c t)).2)
    (hbrand : ∀ {root : Path} {t' : Tree}, (checkedTree c t).checkApart template output = .ok () →
      refill false template output (checkedTree c t) = (.ok root, t') → P t' →
        ∀ brand strategy, P (brandTree false c.layout brand strategy root t').2) :
    P (work c t).2 := by
  unfold checkedTree at hchecked hrefill hbrand
  unfold work
  rw [htemplate, houtput, hreal]
  cases hexplicit : c.explicitBrand? with
  | error fault =>
    rw [hexplicit] at hchecked
    exact hchecked
  | ok explicit =>
    simp only [hexplicit, hreal, Files.ofResult_ok, pure_bind] at hchecked hrefill hbrand ⊢
    generalize hs : (State.resolve explicit c.stateFile (!false) t).2 = s at hchecked hrefill hbrand
    refine after_bind (hs ▸ hchecked) fun resolution s' hrun _ => ?_
    obtain rfl : s = s' := by rw [← hs, hrun]
    refine Files.after_ofResult_bind hchecked fun strategy _ => ?_
    rw [get_bind_apply]
    refine Files.after_ofResult_bind hchecked fun _ hcheck => ?_
    exact after_bind (hrefill hcheck) fun root t' hrun ht' => hbrand hcheck hrun ht' _ _

/-- Whatever comes of a build, what the template held when the output was checked stays as it
was. -/
theorem work_keeps (hplaced : c.layout.IsPlaced) (hreal : c.isPreview = false) (ht : t.Named)
    (hrooted : output.rooted = true) (htemplate : c.templateDir = .ok template)
    (houtput : c.outputDir = .ok output)
    (hfind : (checkedTree c t).find template = .ok (source, .directory))
    (hsafe : (checkedTree c t).Plain ∨ (checkedTree c t).CheckReliable output source) {l : Location}
    {e : Entry} (hl : source <+: l) (he : (checkedTree c t).get? l = some e) :
    (work c t).2.get? l = some e := by
  have hnamed := named_checkedTree c ht
  refine after_work (P := fun s : Tree => s.get? l = some e) hreal htemplate houtput he
    (fun hcheck => ?_) fun hcheck hrefill hkept brand strategy => ?_
  · obtain ⟨target, hapart, hkept, -⟩ := exists_refilled hnamed hrooted hfind hcheck hsafe
    obtain ⟨names, rfl⟩ := hl
    exact hkept (hapart.symm.not_prefix_append names) he
  · obtain ⟨target, hapart, -, hfilled⟩ := exists_refilled hnamed hrooted hfind hcheck hsafe
    obtain ⟨rfl, hr⟩ := hfilled hrefill
    exact ((confined_brandTree hrooted hplaced _ _ _ _).keepsBelow hr hapart l hl).trans hkept

/-- Where the check is reliable, the template has nothing more in it after the build, either. -/
theorem work_keepsBelow (hplaced : c.layout.IsPlaced) (hreal : c.isPreview = false) (ht : t.Named)
    (hrooted : output.rooted = true) (htemplate : c.templateDir = .ok template)
    (houtput : c.outputDir = .ok output)
    (hfind : (checkedTree c t).find template = .ok (source, .directory))
    (hreliable : (checkedTree c t).CheckReliable output source) :
    (checkedTree c t).KeepsBelow source (work c t).2 := by
  have hnamed := named_checkedTree c ht
  refine after_work (P := (checkedTree c t).KeepsBelow source) hreal htemplate houtput
    (.refl source _) (fun hcheck => refill_keepsBelow hnamed hrooted hfind hcheck hreliable)
    fun hcheck hrefill hkept brand strategy => ?_
  obtain ⟨target, hapart, -, hfilled⟩ :=
    exists_refilled hnamed hrooted hfind hcheck (Or.inr hreliable)
  obtain ⟨rfl, hr⟩ := hfilled hrefill
  exact hkept.trans ((confined_brandTree hrooted hplaced _ _ _ _).keepsBelow hr hapart)

/-- Whatever comes of a build, every entry of the template is what it was before, unless the state
file lies there. Without links that is always so. With links the check of the output has to be
reliable, and then nothing is added to the template either, once the brand has been remembered. -/
theorem run_template_kept {home : Option String} {workingDir : Path} {options : Options} {t : Tree}
    {c : RunContext} (hload : RunContext.load home workingDir options t = .ok c)
    (hrooted : workingDir.rooted = true) (hreal : c.isPreview = false) {w : World}
    (hnamed : w.tree.Named) {template output : Path} (htemplate : c.templateDir = .ok template)
    (houtput : c.outputDir = .ok output) {source : Location}
    (hfind : w.tree.find template = .ok (source, .directory))
    (hstate : ∀ l e, (checkedTree c w.tree).find c.stateFile = .ok (l, e) → ¬source <+: l) :
    (w.tree.Plain ∨ (checkedTree c w.tree).CheckReliable output source →
      ∀ l e, source <+: l → w.tree.get? l = some e → (run c w).2.tree.get? l = some e) ∧
    ((checkedTree c w.tree).CheckReliable output source →
      ∀ l, source <+: l → (run c w).2.tree.get? l = (checkedTree c w.tree).get? l) := by
  obtain ⟨rfl, hplaced⟩ := RunContext.of_load hload
  have houtputRooted := RunContext.rooted_outputDir hrooted houtput
  have hfound := (keepsWays_checkedTree c w.tree).find hfind
  rw [(mirrors_run c w).2]
  constructor
  · intro hsafe l e hl he
    have hchecked : (checkedTree c w.tree).get? l = some e := by
      rcases checkedTree_below c w.tree hstate hl with hsame | ⟨hnone, -⟩
      · rw [hsame, he]
      · rw [he] at hnone
        cases hnone
    exact work_keeps hplaced hreal hnamed houtputRooted htemplate houtput hfound
      (hsafe.imp_left (plain_checkedTree c)) hl hchecked
  · intro hreliable
    exact work_keepsBelow hplaced hreal hnamed houtputRooted htemplate houtput hfound hreliable

/-- A small template, and a link to the directory that it lies in. -/
private def linkTree : Tree := .putAll ∅
  [(["real"], .directory), (["real", "src"], .directory),
    (["real", "src", "App.php"], .file "<?php\nnamespace WPLite;\n".toUTF8),
    (["link"], .link (.ofString "/real"))]

private theorem named_linkTree : linkTree.Named := Tree.plain_empty.named.putAll (by decide)

/-- A build by way of the link. -/
private def linkContext (output : String) : RunContext :=
  .inRoot {} ["--prefix=Acme", "--source=link/src", "--output=" ++ output]

private def linkWorld : World := .typed .empty linkTree

/-- By way of the link, next to the template, the check is reliable. -/
theorem run_template_kept_link :
    (run (linkContext "link/core") linkWorld).2.tree.get? ["real", "src", "App.php"] =
      some (.file "<?php\nnamespace WPLite;\n".toUTF8) := by
  have hload : RunContext.load none (.ofString "/")
      (.parse ["--prefix=Acme", "--source=link/src", "--output=link/core"]) linkTree =
        .ok (linkContext "link/core") := RunContext.load_inRoot (by decide +kernel) _
  have htemplate : (linkContext "link/core").templateDir = .ok (.ofString "/link/src") := by
    decide +kernel
  have houtput : (linkContext "link/core").outputDir = .ok (.ofString "/link/core") := by
    decide +kernel
  have hfind : linkTree.find (.ofString "/link/src") = .ok (["real", "src"], .directory) := by
    decide +kernel
  have hreliable : (checkedTree (linkContext "link/core") linkTree).CheckReliable
      (.ofString "/link/core") ["real", "src"] :=
    .of_absent (r := .absent) (by decide +kernel) (by decide +kernel)
  have hfile : ((checkedTree (linkContext "link/core") linkTree).find
      (linkContext "link/core").stateFile).map Prod.fst = .ok ["nsbrand.json"] := by decide +kernel
  have hstate : ∀ l e, (checkedTree (linkContext "link/core") linkTree).find
      (linkContext "link/core").stateFile = .ok (l, e) → ¬["real", "src"] <+: l := by
    intro l e hfound
    rw [Tree.eq_of_map_find hfile hfound]
    decide
  obtain ⟨hkept, -⟩ :=
    run_template_kept (w := linkWorld) hload rfl (by decide +kernel) named_linkTree
    htemplate houtput hfind hstate
  exact hkept (Or.inr hreliable) _ _ ⟨["App.php"], rfl⟩ (by decide +kernel)

/-- An output in the template is refused, and the template is left to itself. -/
example : (run (linkContext "link/src/core") linkWorld).1.isOk = false ∧
    (run (linkContext "link/src/core") linkWorld).2.tree.get? ["real", "src", "App.php"] =
      some (.file "<?php\nnamespace WPLite;\n".toUTF8) := by
  decide +kernel

/-- The check allows this output, and the template is copied onto itself. -/
theorem exists_template_emptied : linkTree.Named ∧
    RunContext.load none (.ofString "/")
        (.parse ["--prefix=Acme", "--source=link/src", "--output=link/missing/../src"]) linkTree =
      .ok (linkContext "link/missing/../src") ∧
    (linkContext "link/missing/../src").isPreview = false ∧
    (linkContext "link/missing/../src").templateDir = .ok (.ofString "/link/src") ∧
    (linkContext "link/missing/../src").outputDir = .ok (.ofString "/link/missing/../src") ∧
    (linkContext "link/missing/../src").stateFile = .ofString "/nsbrand.json" ∧
    linkTree.find (.ofString "/link/src") = .ok (["real", "src"], .directory) ∧
    (checkedTree (linkContext "link/missing/../src") linkTree).checkApart (.ofString "/link/src")
      (.ofString "/link/missing/../src") = .ok () ∧
    (run (linkContext "link/missing/../src") linkWorld).1.isOk = true ∧
    linkTree.get? ["real", "src", "App.php"] =
      some (.file "<?php\nnamespace WPLite;\n".toUTF8) ∧
    (run (linkContext "link/missing/../src") linkWorld).2.tree.get? ["real", "src", "App.php"] =
      some (.file .empty) :=
  ⟨named_linkTree, by decide +kernel, by decide +kernel, by decide +kernel, by decide +kernel,
    by decide +kernel, by decide +kernel, by decide +kernel, by decide +kernel, by decide +kernel,
    by decide +kernel⟩

end Build

end Branding
