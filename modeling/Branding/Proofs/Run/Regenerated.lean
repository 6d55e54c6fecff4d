import Branding.Proofs.Run.Remembered

/-!
# A build regenerates its output

What an earlier build has left in the output is to make no difference to the next. Two trees that
differ there and nowhere else are made the same by emptying the output, and from there on two builds
are one and the same, with the same records and the same files, in the output and everywhere else.
Before that they have only remembered the brand, in the same state file, where the path of that file
does not lead through the output.

Emptying rests on finding the output. It is looked for by its path, and what is there is removed. A
path that takes back a name which does not exist leads nowhere, so nothing is removed, although the
path leads to a directory as soon as the missing name has been made. Then the template is copied
over what is there.

## Main definitions

* `Tree.AgreeOutside` — two trees that differ at or below one location only

## Main results

* `State.remember_agree` — remembering the same brand in two such trees
* `Build.refill_emptied` — the output is filled after it was emptied
* `Build.run_regenerates` — two builds
* `Build.exists_stale_run` — a build that leaves what was in its output
-/

namespace Branding

/-- Two trees differ at or below one location, and nowhere else. -/
def Tree.AgreeOutside (l : Location) (t t' : Tree) : Prop :=
  ∀ n, ¬l <+: n → t.get? n = t'.get? n

namespace Tree

variable {t t' s s' : Tree} {l : Location} {p : Path}

/-- Two trees with nothing where they differ are the same. -/
theorem AgreeOutside.eq_of_cleared (h : t.AgreeOutside l t')
    (hs : ∀ n, s.get? n = if l <+: n then none else t.get? n)
    (hs' : ∀ n, s'.get? n = if l <+: n then none else t'.get? n) : s = s' := by
  refine ext_get? fun n => ?_
  rw [hs, hs']
  split
  next => rfl
  next hn => exact h n hn

/-- A file reads the same in two trees that are the same where its path or a directory around it
leads. -/
theorem Plain.readText_agree (ht : t.Plain) (hp : p.rooted = true)
    (h : ∀ q ∈ p :: p.enclosing, t.get? q.lexical = t'.get? q.lexical) {text : String}
    (hread : t.readText p = .ok text) : t'.readText p = .ok text := by
  unfold readText readBytes at hread ⊢
  cases hfind : t.find p with
  | error r =>
    rw [hfind] at hread
    cases hread
  | ok found =>
    obtain ⟨m, e⟩ := found
    rw [ht.find_of_kept hp hfind fun q hq e he => by rw [← h q hq, he]]
    rwa [hfind] at hread

end Tree

namespace State

variable {t t' s s' : Tree} {file : Path} {brand : Brand}

/-- A state file gives the same members in two trees that are the same where its path or a directory
around it leads. -/
theorem load_agree (ht : t.Plain) (ht' : t'.Plain) (hfile : file.rooted = true)
    (h : ∀ q ∈ file :: file.enclosing, t.get? q.lexical = t'.get? q.lexical) :
    load t file = load t' file := by
  unfold load
  cases hread : t.readText file with
  | ok text => rw [ht.readText_agree hfile h hread]
  | error r =>
    cases hread' : t'.readText file with
    | error r' => rfl
    | ok text =>
      rw [ht'.readText_agree hfile (fun q hq => (h q hq).symm) hread'] at hread
      cases hread

/-- What there is when a brand has been remembered: the state file, the directories around it, and
everything else as it was. -/
theorem remember_get? (ht : t.Plain) (hfile : file.rooted = true) {u : Unit}
    (h : remember file brand t = (.ok u, t')) :
    t'.get? file.lexical = some (.file (brandedState t file brand).toUTF8) ∧
      (∀ q ∈ file.enclosing, t'.get? q.lexical = some .directory) ∧
      ∀ n, (∀ q ∈ file :: file.enclosing, q.lexical ≠ n) → t'.get? n = t.get? n := by
  obtain ⟨ht', hsaved⟩ := remember_madeAround ht hfile h
  obtain ⟨l, hfind⟩ := find_of_remember h
  refine ⟨(ht'.find_eq_ok hfind).2.1, fun q hq => ?_, fun n hn => ?_⟩
  · have hne : q.text ≠ "" := Path.text_ne_of_rooted ((Path.rooted_of_mem_enclosing hq).trans hfile)
    obtain ⟨d, hdir⟩ := Tree.find_of_mem_enclosing hne hq hfind
    exact (ht'.find_eq_ok hdir).2.1
  · refine (hsaved n fun heq => hn file List.mem_cons_self heq.symm).resolve_right ?_
    rintro ⟨⟨q, hq, rfl⟩, -⟩
    exact hn q (List.mem_cons_of_mem _ hq) rfl

/-- Remembering a brand leaves two trees that differ in one place as much alike as they were, where
the path of the state file goes past that place. -/
theorem remember_agree {l : Location} (ht : t.Plain) (hs : s.Plain) (hfile : file.rooted = true)
    (hpast : ∀ q ∈ file :: file.enclosing, ¬l <+: q.lexical) (h : t.AgreeOutside l s) {u u' : Unit}
    (ht' : remember file brand t = (.ok u, t')) (hs' : remember file brand s = (.ok u', s')) :
    t'.AgreeOutside l s' := by
  obtain ⟨hfile₁, haround₁, helse₁⟩ := remember_get? ht hfile ht'
  obtain ⟨hfile₂, haround₂, helse₂⟩ := remember_get? hs hfile hs'
  intro n hn
  by_cases hmet : ∃ q ∈ file :: file.enclosing, q.lexical = n
  · obtain ⟨q, hq, rfl⟩ := hmet
    rcases List.mem_cons.1 hq with rfl | hq
    · rw [hfile₁, hfile₂, brandedState, brandedState, savedText, savedText,
        load_agree ht hs hfile fun q hq => h _ (hpast q hq)]
    · rw [haround₁ q hq, haround₂ q hq]
  · have hmet : ∀ q ∈ file :: file.enclosing, q.lexical ≠ n := fun q hq heq => hmet ⟨q, hq, heq⟩
    rw [helse₁ n hmet, helse₂ n hmet, h n hn]

end State

namespace Build

variable {template output root : Path} {t t' : Tree}

/-- The path of an output leads to what is to be emptied, or nothing is to be emptied. -/
def Findable (t : Tree) (output : Path) : Prop :=
  t.has output = true ∨ t.get? output.lexical = none

/-- Remembering a brand past the output leaves it where it is found. -/
theorem Findable.of_remember {file : Path} {brand : Brand} (h : Findable t output) (ht : t.Plain)
    (hfile : file.rooted = true)
    (hpast : ∀ q ∈ file :: file.enclosing, ¬output.lexical <+: q.lexical)
    {u : Unit} (hremember : State.remember file brand t = (.ok u, t')) : Findable t' output := by
  obtain ⟨-, -, helse⟩ := State.remember_get? ht hfile hremember
  have hsame : t'.get? output.lexical = t.get? output.lexical :=
    helse _ fun q hq heq => hpast q hq (heq ▸ List.prefix_refl _)
  refine h.imp (fun hhas => ?_) fun hnone => hsame.trans hnone
  obtain ⟨l, e, hfind⟩ := Tree.has_iff.1 hhas
  obtain ⟨rfl, -⟩ := ht.find_eq_ok hfind
  obtain ⟨hadm, hlands⟩ := Tree.find_eq_ok_iff.1 hfind
  have hways := (State.keepsWays_remember file brand).of_eq_ok hremember
  exact Tree.has_iff.2 ⟨_, e, Tree.find_eq_ok_iff.2 ⟨hadm, hlands.of_keepsWays hways hsame⟩⟩

/-- The output is filled after it was emptied, and emptying has left everything else. -/
theorem refill_emptied (ht : t.Plain) (hfound : Findable t output)
    (h : refill false template output t = (.ok root, t')) :
    ∃ s, (∀ n, s.get? n = if output.lexical <+: n then none else t.get? n) ∧
      fill template output s = (.ok root, t') := by
  unfold refill at h
  rw [get_bind_apply] at h
  by_cases hhas : t.has output = true
  · rw [if_pos hhas] at h
    obtain ⟨removal, s, hclean, hfill⟩ := bind_eq_ok.1 h
    exact ⟨s, (Files.clean_get? ht hhas hclean).2, hfill⟩
  · rw [if_neg hhas] at h
    have hnone := hfound.resolve_left hhas
    refine ⟨t, fun n => ?_, h⟩
    split
    next hn =>
      obtain ⟨more, rfl⟩ := hn
      by_cases hmore : more = []
      · rw [hmore, List.append_nil, hnone]
      · exact Tree.get?_append_eq_none (by simp [hnone]) hmore
    next => rfl

/-- An output whose path takes nothing back is found where there is one, if it can be filled. -/
theorem findable_of_refill (ht : t.Plain) (hrooted : output.rooted = true)
    (hup : ".." ∉ output.segments)
    (h : refill false template output t = (.ok root, t')) : Findable t output := by
  unfold refill at h
  rw [get_bind_apply] at h
  by_cases hhas : t.has output = true
  · exact Or.inl hhas
  rw [if_neg hhas] at h
  obtain ⟨u, s, hcopy, -⟩ := bind_eq_ok.1 h
  obtain ⟨u₁, s₁, hmade, -⟩ := bind_eq_ok.1 (adapt_eq_ok.1 hcopy)
  obtain ⟨hdir, hadm⟩ := Files.ensureDirectory_eq_ok ht (Path.text_ne_of_rooted hrooted) hmade
  refine Or.inr (Option.eq_none_iff_forall_ne_some.2 fun e he => ?_)
  -- what was there is the directory that is there, and a directory would have been found
  have hkept := (Files.within_ensureDirectory output).of_eq_ok hmade _ _ he
  obtain rfl : e = .directory := Option.some.inj (hkept.symm.trans hdir)
  exact hhas (Tree.has_iff.2 ⟨_, _, ht.find_of_get? hadm hup he (Or.inl rfl)⟩)

section Run

variable {c : RunContext} {raw : String}

/-- A build that succeeds has remembered the brand it was asked for, emptied its output, filled it
and branded what is there. -/
theorem steps_of_run (hrooted : c.workingDir.rooted = true) (hreal : c.isPreview = false)
    (hexplicit : c.explicitBrand? = .ok (some raw)) (houtput : c.outputDir = .ok output)
    (hpast : ∀ q ∈ c.stateFile :: c.stateFile.enclosing, ¬output.lexical <+: q.lexical)
    {w w' : World}
    (hplain : w.tree.Plain) (hfound : .up ∈ output.components → Findable w.tree output)
    {m : Manifest} (h : run c w = (.ok m, w')) :
    ∃ brand template strategy, Brand.ofString? raw = some brand ∧ c.templateDir = .ok template ∧
      c.strategy = .ok strategy ∧ ∃ root u, ∃ t₁ t₂ t₃ : Tree,
        State.remember c.stateFile brand w.tree = (.ok u, t₁) ∧
        (∀ n, t₂.get? n = if output.lexical <+: n then none else t₁.get? n) ∧
        fill template output t₂ = (.ok root, t₃) ∧
        brandTree false c.layout brand strategy root t₃ = (.ok m, w'.tree) := by
  rw [Path.up_mem_components_iff] at hfound
  have hwork := (mirrors_run c).eq_ok h
  obtain ⟨⟨template, htemplate⟩, strategy, hstrategy⟩ := exists_template_of_work hwork
  obtain ⟨explicit, resolution, root, t₁, t₃, hexplicit', hresolve, -, hrefill, hbrand⟩ :=
    steps_of_work hwork htemplate houtput hstrategy
  rw [hreal] at hresolve hrefill hbrand
  obtain rfl := Except.ok.inj (hexplicit.symm.trans hexplicit')
  obtain ⟨hname, u, hremember⟩ := State.remember_of_resolve hresolve
  have hstateRooted : c.stateFile.rooted = true := RunContext.rooted_resolve hrooted _
  obtain ⟨hplain₁, -⟩ := State.remember_madeAround hplain hstateRooted hremember
  have hfound₁ : Findable t₁ output := by
    by_cases hup : ".." ∈ output.segments
    · exact (hfound hup).of_remember hplain hstateRooted hpast hremember
    · exact findable_of_refill hplain₁ (RunContext.rooted_outputDir hrooted houtput) hup hrefill
  obtain ⟨t₂, hemptied, hfill⟩ := refill_emptied hplain₁ hfound₁ hrefill
  exact ⟨resolution.brand, template, strategy, Brand.ofString?_eq_some_iff.2 hname, htemplate,
    hstrategy, root, u, t₁, t₂, t₃, hremember, hemptied, hfill, hbrand⟩

/-- Two builds that are asked for the same brand, in trees that differ in the output only, give the
same records and leave the same files, if both succeed. The path of the state file goes past the
output. A path of the output that takes names back leads to it, or nothing is there. -/
theorem run_regenerates (hrooted : c.workingDir.rooted = true) (hreal : c.isPreview = false)
    (hexplicit : c.explicitBrand? = .ok (some raw)) (houtput : c.outputDir = .ok output)
    (hpast : ∀ q ∈ c.stateFile :: c.stateFile.enclosing, ¬output.lexical <+: q.lexical)
    {w₁ w₂ w₁' w₂' : World} (hplain₁ : w₁.tree.Plain) (hplain₂ : w₂.tree.Plain)
    (hagree : w₁.tree.AgreeOutside output.lexical w₂.tree)
    (hfound : .up ∈ output.components → Findable w₁.tree output ∧ Findable w₂.tree output)
    {m₁ m₂ : Manifest} (h₁ : run c w₁ = (.ok m₁, w₁')) (h₂ : run c w₂ = (.ok m₂, w₂')) :
    m₁ = m₂ ∧ w₁'.tree = w₂'.tree := by
  obtain ⟨brand, template, strategy, hbrand, htemplate, hstrategy, root, u, t₁, t₂, t₃, hremember,
    hemptied, hfill, hbranded⟩ :=
    steps_of_run hrooted hreal hexplicit houtput hpast hplain₁ (fun hup => (hfound hup).1) h₁
  obtain ⟨brand', template', strategy', hbrand', htemplate', hstrategy', root', u', t₁', t₂', t₃',
    hremember', hemptied', hfill', hbranded'⟩ :=
    steps_of_run hrooted hreal hexplicit houtput hpast hplain₂ (fun hup => (hfound hup).2) h₂
  obtain rfl := Option.some.inj (hbrand.symm.trans hbrand')
  obtain rfl := Except.ok.inj (htemplate.symm.trans htemplate')
  obtain rfl := Except.ok.inj (hstrategy.symm.trans hstrategy')
  -- with the output emptied the two trees are one
  have hstateRooted : c.stateFile.rooted = true := RunContext.rooted_resolve hrooted _
  have hagree₁ :=
    State.remember_agree hplain₁ hplain₂ hstateRooted hpast hagree hremember hremember'
  obtain rfl : t₂ = t₂' := hagree₁.eq_of_cleared hemptied hemptied'
  obtain ⟨hroot, rfl⟩ := Prod.mk.inj (hfill.symm.trans hfill')
  obtain rfl := Except.ok.inj hroot
  obtain ⟨hm, htree⟩ := Prod.mk.inj (hbranded.symm.trans hbranded')
  exact ⟨Except.ok.inj hm, htree⟩

end Run

/-- A small template. -/
private def freshTree : Tree := .putAll ∅
  [(["src"], .directory), (["src", "App.php"], .file "<?php\nnamespace WPLite;\n".toUTF8)]

/-- What an earlier build has left. -/
private def leftovers : List (Location × Entry) :=
  [(["core"], .directory), (["core", "Old.php"], .file "<?php\n".toUTF8)]

/-- The template, and what an earlier build has left. -/
private def leftTree : Tree := freshTree.putAll leftovers

private theorem plain_freshTree : freshTree.Plain := Tree.plain_empty.putAll (by simp) (by decide)

private theorem plain_leftTree : leftTree.Plain :=
  plain_freshTree.putAll (by simp [leftovers]) (by decide)

private theorem agree_leftTree : leftTree.AgreeOutside ["core"] freshTree := by
  intro n hn
  refine (Tree.get?_putAll freshTree leftovers n).resolve_right ?_
  rintro ⟨e, hleft, -⟩
  have hcore : ∀ p ∈ leftovers, ["core"] <+: p.1 := by decide
  exact hn (hcore (n, e) hleft)

/-- With or without the output of an earlier build, there are the same files afterwards. -/
theorem run_regenerates_left_output : ∃ m w₁ w₂,
    run (.inRoot {} ["--prefix=Acme"]) (.typed .empty leftTree) = (.ok m, w₁) ∧
    run (.inRoot {} ["--prefix=Acme"]) (.typed .empty freshTree) = (.ok m, w₂) ∧
    w₁.tree = w₂.tree := by
  obtain ⟨m₁, w₁, h₁⟩ := exists_of_isOk (x := run (.inRoot {} ["--prefix=Acme"]))
    (s := .typed .empty leftTree) (by decide +kernel)
  obtain ⟨m₂, w₂, h₂⟩ := exists_of_isOk (x := run (.inRoot {} ["--prefix=Acme"]))
    (s := .typed .empty freshTree) (by decide +kernel)
  have houtput : (RunContext.inRoot {} ["--prefix=Acme"]).outputDir = .ok (.ofString "/core") := by
    decide +kernel
  have hlexical : (Path.ofString "/core").lexical = ["core"] := by decide +kernel
  have hacme : (RunContext.inRoot {} ["--prefix=Acme"]).explicitBrand? = .ok (some "Acme") := by
    decide +kernel
  obtain ⟨rfl, htree⟩ := run_regenerates rfl (by decide +kernel) hacme houtput (by decide +kernel)
    plain_leftTree plain_freshTree (by rw [hlexical]; exact agree_leftTree)
    (fun hup => absurd hup (by decide +kernel)) h₁ h₂
  exact ⟨m₁, w₁, w₂, h₁, h₂, htree⟩

/-- The path of this output takes back a name that does not exist, so it leads past what is to be
emptied. -/
private def missedContext : RunContext := .inRoot {} ["--prefix=Acme", "--output=missing/../core"]

/-- Two trees differ in the output only, and so they do when the same build has succeeded in
both. -/
theorem exists_stale_run : ∃ (m₁ m₂ : Manifest) (w₁ w₂ : World),
    (∀ t ∈ [leftTree, freshTree], t.Plain ∧ RunContext.load none (.ofString "/")
      (.parse ["--prefix=Acme", "--output=missing/../core"]) t = .ok missedContext) ∧
    missedContext.isPreview = false ∧ missedContext.explicitBrand? = .ok (some "Acme") ∧
    missedContext.outputDir = .ok (.ofString "/missing/../core") ∧
    (Path.ofString "/missing/../core").lexical = ["core"] ∧
    (∀ q ∈ missedContext.stateFile :: missedContext.stateFile.enclosing, ¬["core"] <+: q.lexical) ∧
    leftTree.AgreeOutside ["core"] freshTree ∧
    run missedContext (.typed .empty leftTree) = (.ok m₁, w₁) ∧
    run missedContext (.typed .empty freshTree) = (.ok m₂, w₂) ∧
    w₁.tree.get? ["core", "Old.php"] = some (.file "<?php\n".toUTF8) ∧
    w₂.tree.get? ["core", "Old.php"] = none := by
  have hleft : (run missedContext (.typed .empty leftTree)).1.isOk = true ∧
      (run missedContext (.typed .empty leftTree)).2.tree.get? ["core", "Old.php"] =
        some (.file "<?php\n".toUTF8) := by
    decide +kernel
  have hfresh : (run missedContext (.typed .empty freshTree)).1.isOk = true ∧
      (run missedContext (.typed .empty freshTree)).2.tree.get? ["core", "Old.php"] = none := by
    decide +kernel
  obtain ⟨m₁, w₁, h₁⟩ := exists_of_isOk hleft.1
  obtain ⟨m₂, w₂, h₂⟩ := exists_of_isOk hfresh.1
  rw [h₁] at hleft
  rw [h₂] at hfresh
  refine ⟨m₁, m₂, w₁, w₂, ?_, by decide +kernel, by decide +kernel, by decide +kernel,
    by decide +kernel, by decide +kernel, agree_leftTree, h₁, h₂, hleft.2, hfresh.2⟩
  simp only [List.forall_mem_cons, List.not_mem_nil, false_imp_iff, implies_true, and_true]
  exact ⟨⟨plain_leftTree, RunContext.load_inRoot (by decide +kernel) _⟩, plain_freshTree,
    RunContext.load_inRoot (by decide +kernel) _⟩

end Build

end Branding
