import Branding.Proofs.Files.Copy
import Branding.Proofs.Files.Remade
import Branding.Proofs.Run.Action
import Branding.Proofs.Run.Apart
import Branding.Proofs.Run.Context
import Branding.Run.Build

/-!
# The output emptied and filled

A build removes what its output path leads to, makes a directory there and copies the template into
it. Three times the path is followed, in a tree that is another one each time. That it is one place
nevertheless, and one apart from the template, is what the check has found out beforehand, where it
can be relied on.

The template is followed anew as well, once the output has been made. If the output was a link, then
the path of the template may have gone past it, and may lead somewhere else now.

## Main definitions

* `Build.refill`, `Build.fill` — the output emptied and filled, and only filled
* `Build.work` — what a build does to the files

## Main results

* `Files.clean_apart` — what is removed is apart from the template, and leaves a place for a
  directory
* `Build.mirrors_run` — a build does to the files what its work does
* `Build.exists_refilled` — whatever comes of it, what is outside the output stays there
* `Build.refill_keepsBelow` — the template is what it was
* `Build.refill_eq_ok`, `Build.refill_copied` — the output holds what the template holds
-/

namespace Branding

variable {template output : Path} {source target : Location}

/-! ### The path of the template -/

/-- The path of the template leads there as before when the output has been made again, unless the
output was a link. -/
theorem Tree.find_of_made {t s u : Tree} (hfind : t.find template = .ok (source, .directory))
    (hclears : t.Clears target s) (hgrows : s.Grows (· <+: target) u)
    {e : Entry} (he : t.get? target = some e) (hlink : ∀ link, e ≠ .link link)
    (hthere : u.isDirectory template = true) :
    u.find template = .ok (source, .directory) := by
  obtain ⟨l, hfound⟩ := isDirectory_iff.1 hthere
  -- what is not at or below the output, and was there, is there
  have hkept : ∀ {n : Location} {e' : Entry}, ¬target <+: n → t.get? n = some e' →
      u.get? n = some e' := fun hn he' =>
    hgrows.get?_of_eq_some ((hclears.elsewhere hn).trans he')
  by_cases hdirectory : e = .directory
  · -- nothing is there that was not there before
    subst hdirectory
    have hwithin : u.Within t := by
      intro n e' he'
      rcases hgrows n with hsame | ⟨hle, -, hnew⟩
      · exact hclears.within n e' (hsame ▸ he')
      · obtain rfl : e' = .directory := Option.some.inj (he'.symm.trans hnew)
        by_cases hn : n = target
        · rw [hn, he]
        · exact get?_eq_directory_of_prefix he hle hn
    have hback := hwithin.find hfound
    rw [hfind] at hback
    cases hback
    exact hfound
  · -- only a file has become a directory
    refine KeepsWays.find (fun n e' he' hfile => ?_) hfind
    by_cases hn : target <+: n
    swap
    · exact hkept hn he'
    obtain ⟨more, rfl⟩ := hn
    by_cases hmore : more = []
    · subst hmore
      rw [List.append_nil] at he' ⊢
      obtain rfl : e = e' := Option.some.inj (he.symm.trans he')
      cases e with
      | directory => exact absurd rfl hdirectory
      | file bytes => exact absurd rfl (hfile bytes)
      | link link => exact absurd rfl (hlink link)
    · rw [get?_append_eq_none (by simpa [he] using hdirectory) hmore] at he'
      cases he'

/-! ### The output emptied -/

/-- What a removal takes away of an output that has passed the check is apart from the template. A
link that the output ends in is taken away itself. -/
theorem Files.clean_apart {t : Tree} (ht : t.Named) (hrooted : output.rooted = true)
    (hfind : t.find template = .ok (source, .directory))
    (hcheck : t.checkApart template output = .ok ()) (hreliable : t.CheckReliable output source)
    (hhas : t.has output = true) :
    ∃ target : Location, Location.Apart source target ∧ t.Clears target (clean false output t).2 ∧
      (∀ {removal : Removal} {s : Tree}, clean false output t = (.ok removal, s) →
        s.Vacant output target) ∧
      ((∃ link, t.look output = .ok (target, .link link)) ∨
        ∃ e, t.get? target = some e ∧ ∀ link, e ≠ .link link) := by
  obtain ⟨l, e, hout⟩ := Tree.has_iff.1 hhas
  obtain ⟨target, htarget, hclears, hcleaned⟩ := clean_clears ht hout
  have hapart : Location.Apart source target := by
    rcases htarget with rfl | ⟨link, hlook⟩
    · obtain ⟨source', hfind', hsettled⟩ := Tree.checkApart_eq_ok hrooted hcheck
      rw [hfind] at hfind'
      cases hfind'
      have hbase :
          t.settledFrom? (output :: output.enclosing) = some (.ofNames true target, []) := by
        rw [Tree.settledFrom?, if_pos hhas, Tree.canonical?_of_find hout]
        rfl
      simpa using hsettled hbase (Tree.find_isName hout)
    · refine ⟨(hreliable.link target link hlook).1, fun hle => ?_⟩
      -- a link is no directory, so nothing is below it
      have hlink := Tree.get?_of_look hlook
      have hdir := Tree.get?_of_find hfind
      by_cases heq : target = source
      · rw [heq, hdir] at hlink
        cases hlink
      · rw [Tree.get?_eq_directory_of_prefix hdir hle heq] at hlink
        cases hlink
  refine ⟨target, hapart, hclears, fun hrun => ?_, ?_⟩
  · exact (hcleaned hrun).vacant hrooted hout fun link hlook => (hreliable.link target link hlook).2
  · rcases htarget with rfl | hlook
    · refine Or.inr ⟨e, Tree.get?_of_find hout, fun link heq => ?_⟩
      rw [heq] at hout
      exact Tree.Lands.ne_link rfl (Tree.find_eq_ok_iff.1 hout).2
    · exact Or.inl hlook

namespace Build

/-! ### The work of a build on the files -/

/-- The output emptied and filled with the template, or only looked through in a preview. -/
def refill (preview : Bool) (template output : Path) : Files Path := do
  if (← get).has output then
    let _ ← Files.clean preview output
  if preview then return template
  Files.during (.copyingTemplate template output) (Files.copyDirectory template output)
  return output

/-- The template copied to the output. -/
def fill (template output : Path) : Files Path := do
  Files.during (.copyingTemplate template output) (Files.copyDirectory template output)
  return output

/-- What a build does to the files. -/
def work (c : RunContext) : Files Manifest := do
  let explicit ← Files.ofResult c.explicitBrand?
  let resolution ← State.resolve explicit c.stateFile !c.isPreview
  let template ← Files.ofResult c.templateDir
  let output ← Files.ofResult c.outputDir
  let strategy ← Files.ofResult c.strategy
  Files.ofResult ((← get).checkApart template output)
  let root ← refill c.isPreview template output
  brandTree c.isPreview c.layout resolution.brand strategy root

open Branding.Action in
theorem mirrors_prepare (preview : Bool) (template output : Path)
    (shownTemplate shownOutput : String) :
    Mirrors (prepare preview template output shownTemplate shownOutput)
      (refill preview template output) := by
  unfold prepare refill
  refine .query_bind fun t => ?_
  have hfill : Mirrors (do
      write [.comment s!"  Copying {shownTemplate}/ to {shownOutput}/..."]
      if preview then return template
      files (Files.during (.copyingTemplate template output) (Files.copyDirectory template output))
      return output)
      (do
        if preview then return template
        Files.during (.copyingTemplate template output) (Files.copyDirectory template output)
        return output) := by
    exact .write_bind (.ite (.pure template) (.bind (.files _) fun _ => .pure output))
  refine .ite (.write_bind ?_) hfill
  exact .bind (.files _) fun removal => .ite_write_bind hfill

open Branding.Action in
/-- A build does to the files what its work does, and has the same records. -/
theorem mirrors_run (c : RunContext) : Mirrors (run c) (work c) := by
  unfold run work
  refine .bind (.ofAnswer _) fun explicit => .bind (.files _) fun resolution => ?_
  refine .bind (.ofAnswer _) fun template => .bind (.ofAnswer _) fun output => ?_
  refine .bind (.ofAnswer _) fun strategy => .query_bind fun t => ?_
  refine .bind (.ofAnswer _) fun _ => .write_bind ?_
  refine .ite_write_bind ?_
  refine .write_bind ?_
  refine .bind (mirrors_prepare _ _ _ _ _) fun root => .write_bind ?_
  refine .bind_end (.files _) fun m => .write_bind ?_
  refine .ite_of ?_ (.write_bind (.pure m))
  exact .query_bind_of fun files => .write_bind (.write_bind (.pure m))

/-- The work of a build that succeeds, in its three parts. -/
theorem steps_of_work {c : RunContext} {t t' : Tree} {m : Manifest} (h : work c t = (.ok m, t'))
    (htemplate : c.templateDir = .ok template) (houtput : c.outputDir = .ok output)
    {strategy : LoaderStrategy} (hstrategy : c.strategy = .ok strategy) :
    ∃ explicit resolution root, ∃ t₁ t₂ : Tree, c.explicitBrand? = .ok explicit ∧
      State.resolve explicit c.stateFile (!c.isPreview) t = (.ok resolution, t₁) ∧
      t₁.checkApart template output = .ok () ∧
      refill c.isPreview template output t₁ = (.ok root, t₂) ∧
      brandTree c.isPreview c.layout resolution.brand strategy root t₂ = (.ok m, t') := by
  unfold work at h
  rw [htemplate, houtput, hstrategy] at h
  obtain ⟨explicit, hexplicit, h⟩ := Files.exists_of_ofResult_bind h
  obtain ⟨resolution, t₁, hresolve, h⟩ := bind_eq_ok.1 h
  obtain ⟨template', hanswer, h⟩ := Files.exists_of_ofResult_bind h
  obtain rfl := Except.ok.inj hanswer
  obtain ⟨output', hanswer', h⟩ := Files.exists_of_ofResult_bind h
  obtain rfl := Except.ok.inj hanswer'
  obtain ⟨strategy', hanswer'', h⟩ := Files.exists_of_ofResult_bind h
  obtain rfl := Except.ok.inj hanswer''
  obtain ⟨u, hcheck, h⟩ := Files.exists_of_ofResult_bind (get_bind_eq_ok.1 h)
  obtain ⟨root, t₂, hrefill, hbrand⟩ := bind_eq_ok.1 h
  exact ⟨explicit, resolution, root, t₁, t₂, hexplicit, hresolve, hcheck, hrefill, hbrand⟩

/-! ### The output filled again -/

section Refill

variable {t t' : Tree}

/-- A place for the output that is not there yet. -/
theorem exists_vacant (hrooted : output.rooted = true)
    (hfind : t.find template = .ok (source, .directory))
    (hcheck : t.checkApart template output = .ok ()) (hreliable : t.CheckReliable output source)
    (hfree : t.has output = false) :
    ∃ target, Location.Apart source target ∧ t.Vacant output target := by
  obtain ⟨⟨base, names⟩, hsettled⟩ := Option.ne_none_iff_exists'.1 hreliable.settled
  obtain ⟨l, rfl, hl, hvacant⟩ := Tree.exists_vacant_of_settled hrooted hfree hsettled
  obtain ⟨source', hfind', hapart⟩ := Tree.checkApart_eq_ok hrooted hcheck
  rw [hfind] at hfind'
  cases hfind'
  exact ⟨_, hapart hsettled hl, hvacant⟩

/-- Whatever comes of filling an output that is to be made at some place, what is there outside of
this place stays there. -/
theorem fill_outside (ht : t.Named) {target : Location}
    (hmade : ∀ {u : Unit} {s : Tree}, Files.ensureDirectory output t = (.ok u, s) →
      s.PlainAt output target) :
    (∀ {n : Location} {e : Entry}, ¬target <+: n → t.get? n = some e →
      (fill template output t).2.get? n = some e) ∧
    ∀ {root : Path} {t' : Tree}, fill template output t = (.ok root, t') →
      root = output ∧ t'.PlainAt output target := by
  refine ⟨fun {n e} hn he => ?_, fun {root t'} hrun => ?_⟩
  · exact after_bind (P := fun s : Tree => s.get? n = some e)
      (Files.copyDirectory_get?_of_eq_some ht hmade hn he) fun _ _ _ hkept => hkept
  · obtain ⟨u, s, hcopy, hend⟩ := bind_eq_ok.1 hrun
    obtain ⟨rfl, rfl⟩ := pure_eq_ok.1 hend
    exact ⟨rfl, Files.copyDirectory_plainAt ht hmade (adapt_eq_ok.1 hcopy)⟩

/-- The output is one place, apart from the template, and whatever comes of filling it again, what
is there outside of this place stays there. Without links that is so wherever the path leads, also
where it comes to a directory that has not been emptied. -/
theorem exists_refilled (ht : t.Named) (hrooted : output.rooted = true)
    (hfind : t.find template = .ok (source, .directory))
    (hcheck : t.checkApart template output = .ok ())
    (hsafe : t.Plain ∨ t.CheckReliable output source) :
    ∃ target : Location, Location.Apart source target ∧
      (∀ {n : Location} {e : Entry}, ¬target <+: n → t.get? n = some e →
        (refill false template output t).2.get? n = some e) ∧
      ∀ {root : Path} {t' : Tree}, refill false template output t = (.ok root, t') →
        root = output ∧ t'.PlainAt output target := by
  have hne : output.text ≠ "" := Path.text_ne_of_rooted hrooted
  unfold refill
  rw [get_bind_apply]
  by_cases hhas : t.has output = true
  · obtain ⟨target, hapart, hclears, hmade⟩ : ∃ target : Location, Location.Apart source target ∧
        t.Clears target (Files.clean false output t).2 ∧
        ∀ {removal : Removal} {s : Tree}, Files.clean false output t = (.ok removal, s) →
          ∀ {u : Unit} {s' : Tree}, Files.ensureDirectory output s = (.ok u, s') →
            s'.PlainAt output target := by
      rcases hsafe with hplain | hreliable
      · obtain ⟨hclears, -⟩ := Files.clean_clears_lexical hplain hhas
        refine ⟨_, hplain.apart_lexical hrooted hfind hcheck, hclears, fun hrun => ?_⟩
        rw [hrun] at hclears
        exact Files.plainAt_of_ensureDirectory (hclears.within.plain hplain) hne
      · obtain ⟨target, hapart, hclears, hvacant, -⟩ :=
          Files.clean_apart ht hrooted hfind hcheck hreliable hhas
        exact ⟨target, hapart, hclears, fun hrun _ _ hmade => ((hvacant hrun).made hmade).1⟩
    rw [if_pos hhas]
    refine ⟨target, hapart, fun {n e} hn he => ?_, fun {root t'} hrun => ?_⟩
    · have hkept : (Files.clean false output t).2.get? n = some e := (hclears.elsewhere hn).trans he
      refine after_bind (P := fun s : Tree => s.get? n = some e) hkept fun removal s hrun hs => ?_
      rw [hrun] at hclears
      exact (fill_outside (hclears.within.named ht) (hmade hrun)).1 hn hs
    · obtain ⟨removal, s, hclean, hrest⟩ := bind_eq_ok.1 hrun
      rw [hclean] at hclears
      exact (fill_outside (hclears.within.named ht) (hmade hclean)).2 hrest
  · obtain ⟨target, hapart, hmade⟩ : ∃ target : Location, Location.Apart source target ∧
        ∀ {u : Unit} {s : Tree}, Files.ensureDirectory output t = (.ok u, s) →
          s.PlainAt output target := by
      rcases hsafe with hplain | hreliable
      · exact ⟨_, hplain.apart_lexical hrooted hfind hcheck,
          Files.plainAt_of_ensureDirectory hplain hne⟩
      · obtain ⟨target, hapart, hv⟩ :=
          exists_vacant hrooted hfind hcheck hreliable (by simpa using hhas)
        exact ⟨target, hapart, fun hrun => (hv.made hrun).1⟩
    rw [if_neg hhas]
    exact ⟨target, hapart, fill_outside ht hmade⟩

/-- Whatever comes of it, the template is what it was. -/
theorem refill_keepsBelow (ht : t.Named) (hrooted : output.rooted = true)
    (hfind : t.find template = .ok (source, .directory))
    (hcheck : t.checkApart template output = .ok ()) (hreliable : t.CheckReliable output source) :
    t.KeepsBelow source (refill false template output t).2 := by
  have hfill : ∀ {s : Tree} {target : Location}, s.Named → s.Vacant output target →
      Location.Apart source target → s.KeepsBelow source (fill template output s).2 :=
    fun {s target} hs hv hapart => after_bind (P := s.KeepsBelow source)
      (Files.copyDirectory_keepsBelow hs hv hapart) fun _ _ _ hkept => hkept
  unfold refill
  rw [get_bind_apply]
  by_cases hhas : t.has output = true
  · obtain ⟨target, hapart, hclears, hvacant, -⟩ :=
      Files.clean_apart ht hrooted hfind hcheck hreliable hhas
    rw [if_pos hhas]
    refine after_bind (P := t.KeepsBelow source) (hclears.keepsBelow hapart)
      fun removal s hrun hkept => ?_
    rw [hrun] at hclears
    exact hkept.trans (hfill (hclears.within.named ht) (hvacant hrun) hapart)
  · obtain ⟨target, hapart, hv⟩ :=
      exists_vacant hrooted hfind hcheck hreliable (by simpa using hhas)
    rw [if_neg hhas]
    exact hfill ht hv hapart

/-- The output is a directory without links in it, apart from the template. Unless it was a link, it
holds what the template holds, where that has no links in it, and the system takes the paths of
both. -/
theorem refill_eq_ok (ht : t.Named) (hrooted : output.rooted = true)
    (hfind : t.find template = .ok (source, .directory))
    (hcheck : t.checkApart template output = .ok ()) (hreliable : t.CheckReliable output source)
    {root : Path} (h : refill false template output t = (.ok root, t')) :
    root = output ∧ ∃ target, Location.Apart source target ∧ t'.PlainAt output target ∧
      (t.Plain → target = output.lexical) ∧
      (t.PlainAt template source → (∀ l link, t.look output ≠ .ok (l, .link link)) →
        (∀ names, t'.get? (target ++ names) = t.get? (source ++ names)) ∧
          ∀ names, t'.get? (target ++ names) ≠ none →
            (template.descend names).Admissible ∧ (output.descend names).Admissible) := by
  -- the path of the template is followed when the output has been made
  have hfill : ∀ {s : Tree} {target : Location}, s.Named → s.Vacant output target →
      Location.Apart source target → s.Within t → t.KeepsBelow source s →
      ((∀ l link, t.look output ≠ .ok (l, .link link)) → ∀ {u : Tree},
        s.Grows (· <+: target) u → u.isDirectory template = true →
          u.find template = .ok (source, .directory)) →
      fill template output s = (.ok root, t') →
      root = output ∧ t'.PlainAt output target ∧ (t.Plain → target = output.lexical) ∧
        (t.PlainAt template source → (∀ l link, t.look output ≠ .ok (l, .link link)) →
          (∀ names, t'.get? (target ++ names) = t.get? (source ++ names)) ∧
            ∀ names, t'.get? (target ++ names) ≠ none →
              (template.descend names).Admissible ∧ (output.descend names).Admissible) := by
    intro s target hs hv hapart hwithin hkept hthere hrun
    obtain ⟨u, s', hcopy, hend⟩ := bind_eq_ok.1 hrun
    obtain ⟨rfl, rfl⟩ := pure_eq_ok.1 hend
    have hcopy := adapt_eq_ok.1 hcopy
    obtain ⟨u₁, s₁, hmade, -⟩ := bind_eq_ok.1 hcopy
    refine ⟨rfl, Files.copyDirectory_plainAt hs (fun hmade => (hv.made hmade).1) hcopy,
      fun ht => hv.eq_lexical (hwithin.plain ht) hmade, fun hr hlink => ?_⟩
    obtain ⟨hcopied, hadm⟩ := Files.copyDirectory_get? hv hapart (fun {u' s₁} hmade hdir => by
      have hgrows := hv.grows
      rw [hmade] at hgrows
      exact hr.of_found (hthere hlink hgrows hdir) (hkept.trans (.of_grows hgrows hapart))) hcopy
    exact ⟨fun names => (hcopied names).trans (hkept.get?_append names), hadm⟩
  unfold refill at h
  rw [get_bind_apply] at h
  by_cases hhas : t.has output = true
  · obtain ⟨target, hapart, hclears, hvacant, hwhat⟩ :=
      Files.clean_apart ht hrooted hfind hcheck hreliable hhas
    rw [if_pos hhas] at h
    obtain ⟨removal, s, hrun, hrest⟩ := bind_eq_ok.1 h
    rw [hrun] at hclears
    obtain ⟨hroot, hplain⟩ := hfill (hclears.within.named ht) (hvacant hrun) hapart
      hclears.within (hclears.keepsBelow hapart) (fun hlink {u} hgrows hdir => by
        obtain ⟨e, he, hnot⟩ := hwhat.resolve_left fun ⟨link, hlook⟩ => hlink target link hlook
        exact Tree.find_of_made hfind hclears hgrows he hnot hdir) hrest
    exact ⟨hroot, target, hapart, hplain⟩
  · obtain ⟨target, hapart, hv⟩ :=
      exists_vacant hrooted hfind hcheck hreliable (by simpa using hhas)
    rw [if_neg hhas] at h
    obtain ⟨hroot, hplain⟩ :=
      hfill ht hv hapart (fun _ _ he => he) (.refl source t)
        (fun _ {u} hgrows _ => hgrows.within.find hfind) h
    exact ⟨hroot, target, hapart, hplain⟩

/-- Without links, and where the path of the output takes nothing back, the output holds what the
template holds, and the template is what it was. -/
theorem refill_copied (ht : t.Plain) (hrooted : output.rooted = true) (hup : ".." ∉ output.segments)
    (hcheck : t.checkApart template output = .ok ()) {root : Path}
    (h : refill false template output t = (.ok root, t')) :
    root = output ∧ Location.Apart template.lexical output.lexical ∧
      t'.PlainAt output output.lexical ∧ t.KeepsBelow template.lexical t' ∧
      (∀ names, t'.get? (output.lexical ++ names) = t.get? (template.lexical ++ names)) ∧
        ∀ names, t'.get? (output.lexical ++ names) ≠ none → (output.descend names).Admissible := by
  obtain ⟨source, hfind, -⟩ := Tree.checkApart_eq_ok hrooted hcheck
  obtain ⟨rfl, -⟩ := ht.find_eq_ok hfind
  have hreliable := ht.checkReliable hrooted hup hcheck template.lexical
  have hkept := refill_keepsBelow ht.named hrooted hfind hcheck hreliable
  rw [h] at hkept
  obtain ⟨rfl, target, hapart, hr, htarget, hcopied⟩ :=
    refill_eq_ok ht.named hrooted hfind hcheck hreliable h
  obtain rfl := htarget ht
  obtain ⟨hcopied, hadm⟩ := hcopied (ht.plainAt (Tree.isDirectory_iff.2 ⟨_, hfind⟩))
    fun l link hlook => ht.no_link l link (Tree.get?_of_look hlook)
  exact ⟨rfl, hapart, hr, hkept, hcopied, fun names hne => (hadm names hne).2⟩

end Refill

end Build

end Branding
