import Branding.Proofs.Run.Install
import Branding.Proofs.Source.Rebranding

/-!
# Branding in place, again and again

A template that has been branded has no place left for another brand: every file is a fixed point of
branding in its role, whatever the brand. So the runs that come later have no records and leave the
template as it is, be they forced, confirmed or declined.

That a file keeps its role is what takes some care. The loader counts when it is found, and so it
must be found by all runs or by none. And the state file must not bring anything new into the
template: its path may go through it, and then the directories on the way are made by the first
run, which remembers its brand or has found one there.

## Main definitions

* `Tree.Branded` — a template that no brand can change, and a state file that is found
* `Install.Series` — runs that succeed one after the other

## Main results

* `Layout.inPlaceBytes_inPlaceBytes` — a file that has been branded is not changed again
* `Install.branded_run` — the first run leaves a branded template
* `Install.run_branded` — a later one leaves it as it is
* `Install.series_after_run` — and so do all of them
-/

namespace Branding

/-! ### A file that has been branded -/

theorem brandedByRole_toUTF8 (brand : Brand) (role : FileRole) (text : String) :
    brandedByRole brand role text.toUTF8 = (brandedText brand role text).toUTF8 := by
  rw [brandedByRole, fromUTF8?_eq_some_iff.2 rfl]

/-- What has been branded in a role is not changed in this role again. The first brand is not the
placeholder, and an entry helper is another matter. -/
theorem brandedByRole_brandedByRole {brand : Brand} (hb : brand.name ≠ "WPLite") {role : FileRole}
    (hrole : role ≠ .entryHelper) {bytes : ByteArray}
    (hnul : ∀ text : String, bytes = text.toUTF8 → '\x00' ∉ text.toList) (q : Brand) :
    brandedByRole q role (brandedByRole brand role bytes) = brandedByRole brand role bytes := by
  have hb : brand.name.toList ≠ placeholder := fun heq => hb (String.toList_inj.1 heq)
  cases htext : String.fromUTF8? bytes with
  | none => simp only [brandedByRole, htext]
  | some text =>
    obtain rfl := fromUTF8?_eq_some_iff.1 htext
    have hnul := hnul text rfl
    rw [brandedByRole_toUTF8, brandedByRole_toUTF8]
    cases role with
    | entryHelper => exact absurd rfl hrole
    | normal =>
      have hstill := brandShapes_brandShapes Shape.inOrder_moduleShapes hb q hnul
      simp only [brandedText, onChars, brandModule, String.toList_ofList, hstill]
    | loader =>
      have hstill := brandShapes_brandShapes Shape.inOrder_loaderShapes hb q hnul
      simp only [brandedText, onChars, brandLoader, String.toList_ofList, hstill]

namespace Layout

variable {layout : Layout} {found : Bool} {names : List String}

/-- Only sources and the loader have a role. -/
theorem eq_or_isSource_of_inPlaceRole? {role : FileRole}
    (h : layout.inPlaceRole? found names = some role) :
    names = layout.loaderFile.lexical ∨ (Path.ofNames false names).isSource = true := by
  unfold inPlaceRole? at h
  split at h
  next hloader => exact Or.inl hloader
  next =>
    split at h
    next hsource => exact Or.inr hsource
    next => cases h

/-- A file that is not at the place of the entry helper is none. -/
theorem inPlaceRole?_ne_entryHelper (h : names ≠ layout.entryHelper.lexical) :
    layout.inPlaceRole? found names ≠ some .entryHelper := by
  unfold inPlaceRole?
  rw [if_neg h]
  split
  · split <;> simp
  · split <;> simp

/-- A file that has been branded is not changed again. -/
theorem inPlaceBytes_inPlaceBytes {brand : Brand} (hb : brand.name ≠ "WPLite")
    (hentry : names ≠ layout.entryHelper.lexical) {bytes : ByteArray}
    (hnul : (names = layout.loaderFile.lexical ∨ (Path.ofNames false names).isSource = true) →
      ∀ text : String, bytes = text.toUTF8 → '\x00' ∉ text.toList) (q : Brand) :
    layout.inPlaceBytes q found names (layout.inPlaceBytes brand found names bytes) =
      layout.inPlaceBytes brand found names bytes := by
  have hne : layout.inPlaceRole? found names ≠ some .entryHelper :=
    inPlaceRole?_ne_entryHelper hentry
  unfold inPlaceBytes
  cases hrole : layout.inPlaceRole? found names with
  | none => rfl
  | some role =>
    refine brandedByRole_brandedByRole hb ?_ (hnul (eq_or_isSource_of_inPlaceRole? hrole)) q
    rintro rfl
    exact hne hrole

end Layout

/-! ### A template that has been branded -/

/-- No brand changes a file of the template, and the state file is found. -/
structure Tree.Branded (t : Tree) (layout : Layout) (template stateFile : Path) : Prop where
  plain : t.Plain
  still : ∀ (q : Brand) (names : List String) (bytes : ByteArray),
    t.get? (template.lexical ++ names) = some (.file bytes) →
      layout.inPlaceBytes q (t.isFile (template.join layout.loaderFile)) names bytes = bytes
  state : t.isFile stateFile = true

namespace Install

/-! ### What a run leaves -/

section Run

variable {t t' : Tree} {layout : Layout} {brand : Brand} {root : Path} {l : Location}
  {preview : Bool} {c : RunContext} {template : Path} {w w' : World}

/-- Branding in place makes files of files, and leaves everything else. -/
theorem brandTree_get?_eq_map (hr : t.PlainAt root l) (hplaced : layout.IsPlaced) {m : Manifest}
    (h : brandTree preview layout brand root t = (.ok m, t')) (place : Location) :
    ∃ f : Entry → Entry, t'.get? place = (t.get? place).map f ∧
      (∀ e, (∀ bytes, e ≠ .file bytes) → f e = e) ∧
      ∀ bytes, ∃ bytes', f (.file bytes) = .file bytes' := by
  obtain ⟨-, hinside, houtside⟩ := brandTree_eq_ok hr hplaced h
  have hid : (∀ e : Entry, (∀ bytes, e ≠ .file bytes) → id e = e) ∧
      ∀ bytes, ∃ bytes', id (Entry.file bytes) = Entry.file bytes' :=
    ⟨fun _ _ => rfl, fun bytes => ⟨bytes, rfl⟩⟩
  by_cases hle : l <+: place
  · obtain ⟨names, rfl⟩ := hle
    refine ⟨_, hinside names, ?_⟩
    cases preview with
    | true => exact hid
    | false =>
      refine ⟨fun e he => ?_, fun bytes => ⟨_, rfl⟩⟩
      cases e with
      | file bytes => exact absurd rfl (he bytes)
      | directory | link target => rfl
  · exact ⟨id, by rw [houtside place hle, Option.map_id_apply], hid⟩

theorem keepsWays_brandTree (hr : t.PlainAt root l) (hplaced : layout.IsPlaced) {m : Manifest}
    (h : brandTree preview layout brand root t = (.ok m, t')) : t.KeepsWays t' := by
  intro place e he hnot
  obtain ⟨f, hmap, hsame, -⟩ := brandTree_get?_eq_map hr hplaced h place
  rw [hmap, he, Option.map_some, hsame e hnot]

theorem plain_brandTree (hr : t.PlainAt root l) (hplaced : layout.IsPlaced) {m : Manifest}
    (h : brandTree preview layout brand root t = (.ok m, t')) (ht : t.Plain) : t'.Plain where
  no_link place target htarget := by
    obtain ⟨f, hmap, hsame, hfile⟩ := brandTree_get?_eq_map hr hplaced h place
    rw [hmap, Option.map_eq_some_iff] at htarget
    obtain ⟨e, he, hf⟩ := htarget
    cases e with
    | file bytes =>
      obtain ⟨bytes', hbytes⟩ := hfile bytes
      rw [hbytes] at hf
      cases hf
    | directory =>
      rw [hsame .directory nofun] at hf
      cases hf
    | link target' => exact ht.no_link place target' he
  isName {place name e} he := by
    obtain ⟨f, hmap, -⟩ := brandTree_get?_eq_map hr hplaced h (place ++ [name])
    rw [hmap, Option.map_eq_some_iff] at he
    obtain ⟨e', he', -⟩ := he
    exact ht.isName he'

/-- A run leaves a tree without links, with the ways that were there. The state file is found after
a real run, which has written it or has read the brand there, and wherever it was found before. -/
theorem run_eq_ok_ways (hrooted : c.workingDir.rooted = true) (hplaced : c.layout.IsPlaced)
    (hplain : w.tree.Plain) (htemplate : c.templateDir = .ok template)
    (hstate : ¬template.lexical <+: c.stateFile.lexical) {m : Manifest}
    (h : run c w = (.ok (some m), w')) :
    w'.tree.Plain ∧ w.tree.KeepsWays w'.tree ∧
      (c.isPreview = false ∨ w.tree.isFile c.stateFile = true →
        w'.tree.isFile c.stateFile = true) := by
  obtain ⟨explicit, resolution, t₁, -, hresolve, hdir, hremember, hbrand⟩ :=
    steps_of_run h htemplate
  obtain ⟨hplain₁, hways₁, -⟩ :=
    State.remember_or_not hplain (RunContext.rooted_resolve hrooted _) hremember
  have hr₁ : t₁.PlainAt template template.lexical :=
    hplain₁.plainAt (Tree.isDirectory_iff.2 ⟨_, hways₁.find (hplain.plainAt hdir).found⟩)
  have hways := keepsWays_brandTree hr₁ hplaced hbrand
  refine ⟨plain_brandTree hr₁ hplaced hbrand hplain₁, IsTrans.trans _ _ _ hways₁ hways, ?_⟩
  intro hreal
  have hfound₁ : t₁.isFile c.stateFile = true := by
    by_cases hwrites : (!c.isPreview && resolution.origin == .explicit) = true
    · rw [if_pos hwrites] at hremember
      obtain ⟨u, hremember⟩ := hremember
      exact State.remember_found hremember
    · rw [if_neg hwrites] at hremember
      subst hremember
      refine hreal.elim (fun hreal => ?_) id
      have horigin : resolution.origin ≠ .explicit := by
        rintro horigin
        rw [hreal, horigin] at hwrites
        exact hwrites rfl
      obtain ⟨raw, hraw⟩ := (State.origin_of_resolve hresolve).resolve_left horigin
      exact State.isFile_of_brand? hraw
  -- the state file is not in the template, so nothing has become of it since
  obtain ⟨l, bytes, hfind⟩ := Tree.isFile_iff.1 hfound₁
  obtain ⟨rfl, hget, -⟩ := hplain₁.find_eq_ok hfind
  obtain ⟨-, -, houtside⟩ := brandTree_eq_ok hr₁ hplaced hbrand
  obtain ⟨hadm, hlands⟩ := Tree.find_eq_ok_iff.1 hfind
  exact Tree.isFile_iff.2 ⟨_, bytes, Tree.find_eq_ok_iff.2 ⟨hadm,
    hlands.of_keepsWays hways (houtside _ hstate)⟩⟩

/-- The loader is found as before. -/
theorem isFile_loaderFile (hrooted : c.workingDir.rooted = true) (hplaced : c.layout.IsPlaced)
    (hplain : w.tree.Plain) (htemplate : c.templateDir = .ok template)
    (hstate : ¬template.lexical <+: c.stateFile.lexical) {m : Manifest}
    (h : run c w = (.ok (some m), w')) :
    w'.tree.isFile (template.join c.layout.loaderFile) =
      w.tree.isFile (template.join c.layout.loaderFile) := by
  obtain ⟨hdir, _, brand, -, -, -, hinside, -⟩ :=
    run_eq_ok_some hrooted hplaced hplain htemplate hstate h
  obtain ⟨hplain', hways, -⟩ := run_eq_ok_ways hrooted hplaced hplain htemplate hstate h
  have hr := hplain.plainAt hdir
  have hr' : w'.tree.PlainAt template template.lexical :=
    hplain'.plainAt (Tree.isDirectory_iff.2 ⟨_, hways.find hr.found⟩)
  refine hr'.isFile_join_congr hr hplaced.loaderFile ?_
  rcases hinside c.layout.loaderFile.lexical with hsame | ⟨-, hnone, hnew⟩
  · rw [hsame]
    cases w.tree.get? (template.lexical ++ c.layout.loaderFile.lexical) with
    | none => simp
    | some e => cases c.isPreview <;> cases e <;> simp [Layout.inPlaceEntry]
  · simp [hnone, hnew]

/-- The first run leaves a branded template, unless its brand is the placeholder. -/
theorem branded_run (hrooted : c.workingDir.rooted = true) (hplaced : c.layout.IsPlaced)
    (hreal : c.isPreview = false) (hplain : w.tree.Plain) (htemplate : c.templateDir = .ok template)
    (hstate : ¬template.lexical <+: c.stateFile.lexical)
    (hentry : ∀ bytes,
      w.tree.get? (template.lexical ++ c.layout.entryHelper.lexical) ≠ some (.file bytes))
    (hnul : ∀ (names : List String) (text : String),
      w.tree.get? (template.lexical ++ names) = some (.file text.toUTF8) →
        names = c.layout.loaderFile.lexical ∨ (Path.ofNames false names).isSource = true →
          '\x00' ∉ text.toList)
    {explicit : Option String} (hexplicit : c.explicitBrand? = .ok explicit)
    (hbrand : explicit.or (State.brand? w.tree c.stateFile) ≠ some "WPLite") {m : Manifest}
    (h : run c w = (.ok (some m), w')) : w'.tree.Branded c.layout template c.stateFile := by
  obtain ⟨hplain', -, hfound⟩ := run_eq_ok_ways hrooted hplaced hplain htemplate hstate h
  obtain ⟨-, explicit', brand, hexplicit', hname, -, hinside, -⟩ :=
    run_eq_ok_some hrooted hplaced hplain htemplate hstate h
  obtain rfl : explicit = explicit' := Except.ok.inj (hexplicit.symm.trans hexplicit')
  have hb : brand.name ≠ "WPLite" := fun heq => hbrand (hname.trans (congrArg some heq))
  refine ⟨hplain', fun q names bytes hbytes => ?_, hfound (Or.inl hreal)⟩
  rw [isFile_loaderFile hrooted hplaced hplain htemplate hstate h]
  rcases hinside names with hsame | ⟨-, -, hnew⟩
  · rw [hbytes, hreal, if_neg Bool.false_ne_true, eq_comm, Option.map_eq_some_iff] at hsame
    obtain ⟨e, he, hmade⟩ := hsame
    cases e with
    | directory | link target => cases hmade
    | file before =>
      cases hmade
      have hnames : names ≠ c.layout.entryHelper.lexical := by
        rintro rfl
        exact hentry before he
      exact Layout.inPlaceBytes_inPlaceBytes hb hnames
        (fun hrole text htext => hnul names text (htext ▸ he) hrole) q
  · rw [hnew] at hbytes
    cases hbytes

/-- A run on a branded template has no records. It leaves the template as it is, and branded. -/
theorem run_branded (hrooted : c.workingDir.rooted = true) (hplaced : c.layout.IsPlaced)
    (htemplate : c.templateDir = .ok template) (hstate : ¬template.lexical <+: c.stateFile.lexical)
    (ht : w.tree.Branded c.layout template c.stateFile) {r : Option Manifest}
    (h : run c w = (.ok r, w')) :
    (r = none ∨ r = some []) ∧
      (∀ names, w'.tree.get? (template.lexical ++ names) =
        w.tree.get? (template.lexical ++ names)) ∧
        w'.tree.Branded c.layout template c.stateFile := by
  obtain ⟨-, -, rfl, hsame⟩ | ⟨m, rfl⟩ := run_eq_ok_cases h
  · rw [hsame]
    exact ⟨Or.inl rfl, fun _ => rfl, ht⟩
  obtain ⟨hdir, _, brand, -, -, rfl, hinside, -⟩ :=
    run_eq_ok_some hrooted hplaced ht.plain htemplate hstate h
  obtain ⟨hplain', -, hfound⟩ := run_eq_ok_ways hrooted hplaced ht.plain htemplate hstate h
  have hkept : ∀ names, w'.tree.get? (template.lexical ++ names) =
      w.tree.get? (template.lexical ++ names) := by
    intro names
    refine ((hinside names).resolve_right ?_).trans ?_
    · exact State.not_madeAround ht.plain (RunContext.rooted_resolve hrooted _) ht.state _
    · cases hget : w.tree.get? (template.lexical ++ names) with
      | none => rfl
      | some e =>
        cases c.isPreview with
        | true => rfl
        | false =>
          cases e with
          | directory | link target => rfl
          | file bytes =>
            rw [if_neg Bool.false_ne_true, Option.map_some, Layout.inPlaceEntry,
              ht.still brand names bytes hget]
  refine ⟨Or.inr (congrArg some ?_), hkept, hplain', fun q names bytes hbytes => ?_,
    hfound (Or.inr ht.state)⟩
  · rw [List.eq_nil_iff_forall_not_mem]
    intro record hrecord
    obtain ⟨names, role, text, hbytes, hrole, hne, -⟩ :=
      ((ht.plain.plainAt hdir).mem_inPlaceManifest hplaced).1 hrecord
    have hstill := ht.still brand names _ hbytes
    rw [Layout.inPlaceBytes, hrole] at hstill
    exact brandedByRole_ne_iff.2 ⟨text, rfl, hne⟩ hstill
  · rw [isFile_loaderFile hrooted hplaced ht.plain htemplate hstate h]
    exact ht.still q names bytes (hkept names ▸ hbytes)

end Run

/-! ### All later runs -/

/-- Runs that succeed one after the other, each on the files that the one before has left. They have
the settings and the template in common, and options and answers of their own.

A run of the command reads its settings again, and an earlier run may have written the file they
come from. The series is about runs for which they come out the same. -/
inductive Series (c : RunContext) : Tree → List (Option Manifest) → Tree → Prop
  | nil (t : Tree) : Series c t [] t
  | cons (options : Options) {t t' : Tree} {console : Console} {r : Option Manifest} {w : World}
      {rs : List (Option Manifest)}
      (htemplate : { c with options := options }.templateDir = c.templateDir)
      (hrun : run { c with options := options } ⟨t, console⟩ = (.ok r, w))
      (hrest : Series c w.tree rs t') : Series c t (r :: rs) t'

/-- After a real run with a brand that is not the placeholder, all runs that go on have no records,
and the template stays as that run has left it. -/
theorem series_after_run {home : Option String} {workingDir : Path} {options : Options} {t : Tree}
    {c : RunContext} (hload : RunContext.load home workingDir options t = .ok c)
    (hrooted : workingDir.rooted = true) (hreal : c.isPreview = false) {w w' : World}
    (hplain : w.tree.Plain) {template : Path} (htemplate : c.templateDir = .ok template)
    (hstate : ¬template.lexical <+: c.stateFile.lexical)
    (hentry : ∀ bytes,
      w.tree.get? (template.lexical ++ c.layout.entryHelper.lexical) ≠ some (.file bytes))
    (hnul : ∀ (names : List String) (text : String),
      w.tree.get? (template.lexical ++ names) = some (.file text.toUTF8) →
        names = c.layout.loaderFile.lexical ∨ (Path.ofNames false names).isSource = true →
          '\x00' ∉ text.toList)
    {explicit : Option String} (hexplicit : c.explicitBrand? = .ok explicit)
    (hbrand : explicit.or (State.brand? w.tree c.stateFile) ≠ some "WPLite") {m : Manifest}
    (h : run c w = (.ok (some m), w')) {rs : List (Option Manifest)} {t' : Tree}
    (hseries : Series c w'.tree rs t') :
    (∀ r ∈ rs, r = none ∨ r = some []) ∧
      ∀ names, t'.get? (template.lexical ++ names) = w'.tree.get? (template.lexical ++ names) := by
  obtain ⟨rfl, hplaced⟩ := RunContext.of_load hload
  have hbranded := branded_run hrooted hplaced hreal hplain htemplate hstate hentry hnul hexplicit
    hbrand h
  generalize w'.tree = s at hseries hbranded
  -- what carries the induction is that the template stays branded
  induction hseries with
  | nil s => exact ⟨by simp, fun _ => rfl⟩
  | @cons options s t' console r w₁ rs hsame hrun hrest ih =>
    obtain ⟨hr, hkept, hstill⟩ := run_branded (c := { c with options := options })
      (w := ⟨s, console⟩) hrooted hplaced (hsame.trans htemplate) hstate hbranded hrun
    obtain ⟨hrs, hkept'⟩ := ih hstill
    exact ⟨List.forall_mem_cons.2 ⟨hr, hrs⟩, fun names => (hkept' names).trans (hkept names)⟩

/-- A template with a source. -/
private def againTree : Tree := .putAll ∅
  [(["src"], .directory), (["src", "App.php"], .file "<?php\nnamespace WPLite;\n".toUTF8)]

private theorem plain_againTree : againTree.Plain := Tree.plain_empty.putAll (by simp) (by decide)

private theorem get?_againTree {names : List String} {bytes : ByteArray}
    (h : againTree.get? (["src"] ++ names) = some (.file bytes)) :
    names = ["App.php"] ∧ bytes = "<?php\nnamespace WPLite;\n".toUTF8 := by
  obtain hempty | ⟨e, hentry, he⟩ := Tree.get?_putAll ∅ _ (["src"] ++ names)
  · rw [Tree.get?_empty (by simp)] at hempty
    cases hempty.symm.trans h
  · obtain rfl := Option.some.inj (he.symm.trans h)
    simpa using hentry

private def settledWorld (t : Tree) (yes : Bool) : World := ⟨t, { reply := .settled yes }⟩

/-- What a run leaves. -/
private def againLeft (tokens : List String) (t : Tree) (yes : Bool) : Tree :=
  (run (.inRoot {} tokens) (settledWorld t yes)).2.tree

/-- Another brand finds nothing to do, and whoever declines has no records. -/
theorem series_after_run_other_brand : ∃ w' t',
    run (.inRoot {} ["--prefix=Acme"]) (settledWorld againTree true) =
        (.ok (some [⟨.ofString "App.php", true, .normal⟩]), w') ∧
      Series (.inRoot {} ["--prefix=Acme"]) w'.tree [some [], none] t' ∧
      t'.get? ["src", "App.php"] = some (.file "<?php\nnamespace Acme\\WPLite;\n".toUTF8) := by
  have hrun : ∀ (tokens : List String) (t : Tree) (yes : Bool) (r : Option Manifest),
      (run (.inRoot {} tokens) (settledWorld t yes)).1 = .ok r →
        ∃ w', run (.inRoot {} tokens) (settledWorld t yes) = (.ok r, w') ∧
          w'.tree = againLeft tokens t yes :=
    fun _ _ _ _ h => ⟨_, Prod.ext h rfl, rfl⟩
  obtain ⟨w₁, hfirst, htree₁⟩ := hrun ["--prefix=Acme"] againTree true
    (some [⟨.ofString "App.php", true, .normal⟩]) (by decide +kernel)
  obtain ⟨w₂, hsecond, htree₂⟩ := hrun ["--prefix=Beta", "--force"]
    (againLeft ["--prefix=Acme"] againTree true) false (some []) (by decide +kernel)
  obtain ⟨w₃, hthird, -⟩ := hrun []
    (againLeft ["--prefix=Beta", "--force"] (againLeft ["--prefix=Acme"] againTree true) false)
    false none (by decide +kernel)
  have hseries : Series (.inRoot {} ["--prefix=Acme"]) w₁.tree [some [], none] w₃.tree := by
    rw [htree₁]
    refine .cons (.parse ["--prefix=Beta", "--force"]) (by decide +kernel) hsecond ?_
    rw [htree₂]
    exact .cons (.parse []) (by decide +kernel) hthird (.nil _)
  have hload : RunContext.load none (.ofString "/") (.parse ["--prefix=Acme"]) againTree =
      .ok (.inRoot {} ["--prefix=Acme"]) := RunContext.load_inRoot (by decide +kernel) _
  have htemplate :
      (RunContext.inRoot {} ["--prefix=Acme"]).templateDir = .ok (.ofString "/src") := by
    decide +kernel
  have hexplicit : (RunContext.inRoot {} ["--prefix=Acme"]).explicitBrand? = .ok (some "Acme") := by
    decide +kernel
  have hsource : (Path.ofString "/src").lexical = ["src"] := by decide +kernel
  have hentry : ∀ bytes, againTree.get? ((Path.ofString "/src").lexical ++
      (RunContext.inRoot {} ["--prefix=Acme"]).layout.entryHelper.lexical) ≠
        some (.file bytes) := by
    intro bytes hbytes
    rw [hsource] at hbytes
    exact absurd (get?_againTree hbytes).1 (by decide +kernel)
  have hnul : ∀ (names : List String) (text : String),
      againTree.get? ((Path.ofString "/src").lexical ++ names) = some (.file text.toUTF8) →
        '\x00' ∉ text.toList := by
    intro names text htext
    rw [hsource] at htext
    rw [String.toByteArray_inj.1 (get?_againTree htext).2]
    decide +kernel
  obtain ⟨-, hkept⟩ := series_after_run hload rfl (by decide +kernel) plain_againTree htemplate
    (by decide +kernel) hentry (fun names text htext _ => hnul names text htext) hexplicit (by simp)
    hfirst hseries
  refine ⟨w₁, w₃.tree, hfirst, hseries, ?_⟩
  rw [hsource] at hkept
  refine (hkept ["App.php"]).trans ?_
  rw [htree₁]
  decide +kernel

end Install

end Branding
