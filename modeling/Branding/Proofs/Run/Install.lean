import Branding.Proofs.Files.Loader
import Branding.Proofs.Options
import Branding.Proofs.Run.Checks
import Branding.Proofs.State
import Branding.Run.Install

/-!
# What branding in place makes of a template

The sources of a template and its loader are branded one after the other, and each of the two leaves
the files of the other alone. So every file has one role, what becomes of it depends on its role and
its text, and the order makes no difference. A preview works on the tree as it was and a forced run
on the tree with the state file in it, and as that lies outside the template, they come to the same
files and have the same records.

Two kinds of files are left alone. An entry helper has to be a source, as a walk comes to nothing
else. And a loader counts when it is found, which the system may refuse when its path is too long.

## Main definitions

* `Layout.inPlaceRole?` — the role in which a file is branded, if it is
* `Layout.inPlaceEntry` — what becomes of an entry of the template
* `Tree.inPlaceManifest` — the records of that

## Main results

* `Tree.PlainAt.mem_inPlaceManifest` — the files that have a record
* `Install.brandTree_eq_ok` — what becomes of a template, and the records, in both kinds of runs
* `Install.run_forced` — a forced run and its preview
-/

namespace Branding

namespace Layout

/-! ### What becomes of an entry -/

/-- The role in which a file is branded in place, by the names that lead to it. The loader has to be
found, and every other file has to be a source. -/
def inPlaceRole? (layout : Layout) (found : Bool) (names : List String) : Option FileRole :=
  if names = layout.loaderFile.lexical then
    if found then some .loader else none
  else if (Path.ofNames false names).isSource then
    if names = layout.entryHelper.lexical then some .entryHelper else some .normal
  else none

/-- The bytes of a file after branding in place, by the names that lead to it. -/
def inPlaceBytes (layout : Layout) (brand : Brand) (found : Bool) (names : List String)
    (bytes : ByteArray) : ByteArray :=
  match layout.inPlaceRole? found names with
  | some role => brandedByRole brand role bytes
  | none => bytes

/-- An entry after branding in place, by the names that lead to it. -/
def inPlaceEntry (layout : Layout) (brand : Brand) (found : Bool) (names : List String) :
    Entry → Entry
  | .file bytes => .file (layout.inPlaceBytes brand found names bytes)
  | e => e

/-- The records of the loader. -/
def loaderRecords (layout : Layout) (brand : Brand) : Option Entry → Manifest
  | some (.file bytes) =>
    if brandedByRole brand .loader bytes = bytes then [] else [⟨layout.loaderFile, true, .loader⟩]
  | _ => []

variable {layout : Layout} {brand : Brand} {names : List String} {found : Bool}

theorem inPlaceRole?_of_ne (h : layout.IsPlaced) (hnames : ∀ s ∈ names, IsName s)
    (hne : names ≠ layout.loaderFile.lexical) :
    layout.inPlaceRole? found names =
      if (Path.ofNames false names).isSource then layout.role? (.ofNames false names)
      else none := by
  rw [inPlaceRole?, if_neg hne, h.role?_ofNames hnames, if_neg hne]

/-- All files but the loader become what branding the sources makes of them. -/
theorem inPlaceEntry_of_ne (h : layout.IsPlaced) (hnames : ∀ s ∈ names, IsName s)
    (hne : names ≠ layout.loaderFile.lexical) (e : Entry) :
    layout.inPlaceEntry brand found names e = brandedEntry layout brand names e := by
  cases e with
  | directory | link target => rfl
  | file bytes =>
    rw [inPlaceEntry, brandedEntry, inPlaceBytes, inPlaceRole?_of_ne h hnames hne, brandedBytes]
    by_cases hsource : (Path.ofNames false names).isSource = true
    · cases layout.role? (Path.ofNames false names) <;> simp [hsource]
    · simp [hsource]

theorem inPlaceEntry_loaderFile_found (bytes : ByteArray) :
    layout.inPlaceEntry brand true layout.loaderFile.lexical (.file bytes) =
      .file (brandedByRole brand .loader bytes) := by
  rw [inPlaceEntry, inPlaceBytes, inPlaceRole?, if_pos rfl, if_pos rfl]

theorem inPlaceEntry_loaderFile_missing :
    layout.inPlaceEntry brand false layout.loaderFile.lexical = id := by
  funext e
  cases e with
  | directory | link target => rfl
  | file bytes =>
    rw [inPlaceEntry, inPlaceBytes, inPlaceRole?, if_pos rfl, if_neg Bool.false_ne_true, id]

end Layout

/-! ### The records -/

namespace Tree

variable {t t' : Tree} {layout : Layout} {brand : Brand} {root : Path} {l : Location} {found : Bool}

/-- The records of branding a tree in place. -/
def inPlaceManifest (layout : Layout) (brand : Brand) (found : Bool) (t : Tree) (l : Location) :
    Manifest :=
  t.brandedManifest layout brand l ++
    if found then layout.loaderRecords brand (t.get? (l ++ layout.loaderFile.lexical)) else []

theorem mem_loaderRecords {e : Option Entry} {record : FileRecord} :
    record ∈ layout.loaderRecords brand e ↔
      ∃ bytes, e = some (.file bytes) ∧ brandedByRole brand .loader bytes ≠ bytes ∧
        record = ⟨layout.loaderFile, true, .loader⟩ := by
  match e with
  | none | some .directory | some (.link _) => simp [Layout.loaderRecords]
  | some (.file bytes) =>
    by_cases hsame : brandedByRole brand .loader bytes = bytes
    · simp [Layout.loaderRecords, hsame]
    · simp [Layout.loaderRecords, hsame]

theorem loaderRecords_congr {e e' : Option Entry}
    (h : ∀ bytes, e = some (.file bytes) ↔ e' = some (.file bytes)) :
    layout.loaderRecords brand e = layout.loaderRecords brand e' := by
  have hnone : ∀ {e : Option Entry}, (∀ bytes, e ≠ some (.file bytes)) →
      layout.loaderRecords brand e = [] := by
    intro e he
    match e with
    | none | some .directory | some (.link _) => rfl
    | some (.file bytes) => exact absurd rfl (he bytes)
  by_cases hfile : ∃ bytes, e = some (.file bytes)
  · obtain ⟨bytes, rfl⟩ := hfile
    rw [(h bytes).1 rfl]
  · rw [not_exists] at hfile
    rw [hnone hfile, hnone fun bytes he => hfile bytes ((h bytes).2 he)]

/-- A file has a record exactly when branding changes its text. -/
theorem PlainAt.mem_inPlaceManifest (hr : t.PlainAt root l) (hplaced : layout.IsPlaced)
    {record : FileRecord} :
    record ∈ t.inPlaceManifest layout brand found l ↔
      ∃ names role text, t.get? (l ++ names) = some (.file text.toUTF8) ∧
        layout.inPlaceRole? found names = some role ∧ brandedText brand role text ≠ text ∧
        record = ⟨.ofNames false names, true, role⟩ := by
  have hsource : ∀ {names : List String} {bytes : ByteArray},
      t.get? (l ++ names) = some (.file bytes) → ∀ {role : FileRole},
      ((Path.ofNames false names).isSource = true ∧
        layout.role? (.ofNames false names) = some role ↔
        names ≠ layout.loaderFile.lexical ∧ layout.inPlaceRole? found names = some role) := by
    intro names bytes hbytes role
    have hnames : ∀ s ∈ names, IsName s := hr.isName hbytes
    by_cases hloader : names = layout.loaderFile.lexical
    · rw [hplaced.role?_ofNames hnames, if_pos hloader]
      simp [hloader]
    · rw [Layout.inPlaceRole?_of_ne hplaced hnames hloader]
      simp [hloader]
  rw [inPlaceManifest, List.mem_append, mem_brandedManifest]
  constructor
  · rintro (⟨names, bytes, -, hbytes, hrecord⟩ | hrecord)
    · obtain ⟨role, hissource, hrole, hchanges, rfl⟩ := mem_brandedRecords.1 hrecord
      obtain ⟨text, rfl, hne⟩ := brandedByRole_ne_iff.1 hchanges
      exact ⟨names, role, text, hbytes, ((hsource hbytes).1 ⟨hissource, hrole⟩).2, hne, rfl⟩
    · split at hrecord
      next hfound =>
        obtain ⟨bytes, hbytes, hchanges, rfl⟩ := mem_loaderRecords.1 hrecord
        obtain ⟨text, rfl, hne⟩ := brandedByRole_ne_iff.1 hchanges
        refine ⟨_, .loader, text, hbytes, ?_, hne, ?_⟩
        · rw [Layout.inPlaceRole?, if_pos rfl, if_pos hfound]
        · rw [hplaced.loaderFile.ofNames_lexical]
      next => cases hrecord
  · rintro ⟨names, role, text, hbytes, hrole, hne, rfl⟩
    have hchanges := brandedByRole_ne_iff.2 ⟨text, rfl, hne⟩
    by_cases hloader : names = layout.loaderFile.lexical
    · subst hloader
      rw [Layout.inPlaceRole?, if_pos rfl] at hrole
      split at hrole
      next hfound =>
        cases hrole
        rw [if_pos hfound]
        refine Or.inr (mem_loaderRecords.2 ⟨_, hbytes, hchanges, ?_⟩)
        rw [hplaced.loaderFile.ofNames_lexical]
      next => cases hrole
    · obtain ⟨hissource, hrole⟩ := (hsource hbytes).2 ⟨hloader, hrole⟩
      refine Or.inl ⟨names, _, ?_, hbytes,
        mem_brandedRecords.2 ⟨role, hissource, hrole, hchanges, rfl⟩⟩
      rintro rfl
      rw [List.append_nil, hr.get?] at hbytes
      cases hbytes

/-- Whether a loader is found depends on the files of a tree, and on nothing else in it. -/
theorem PlainAt.isFile_join_congr (hr : t.PlainAt root l) (hr' : t'.PlainAt root l) {place : Path}
    (hplace : place.IsPlace)
    (h : (∃ bytes, t.get? (l ++ place.lexical) = some (.file bytes)) ↔
      ∃ bytes, t'.get? (l ++ place.lexical) = some (.file bytes)) :
    t.isFile (root.join place) = t'.isFile (root.join place) := by
  rw [Bool.eq_iff_iff, isFile_iff, isFile_iff, hplace.join_eq_descend]
  simp only [hr.find_descend_iff fun _ => Path.isName_of_mem_lexical,
    hr'.find_descend_iff fun _ => Path.isName_of_mem_lexical]
  constructor
  · rintro ⟨m, bytes, hadm, rfl, hbytes⟩
    obtain ⟨bytes', hbytes'⟩ := h.1 ⟨bytes, hbytes⟩
    exact ⟨_, bytes', hadm, rfl, hbytes'⟩
  · rintro ⟨m, bytes, hadm, rfl, hbytes⟩
    obtain ⟨bytes', hbytes'⟩ := h.2 ⟨bytes, hbytes⟩
    exact ⟨_, bytes', hadm, rfl, hbytes'⟩

/-- The records depend on the files of a tree, and on nothing else in it. -/
theorem inPlaceManifest_congr
    (h : ∀ names bytes, t.get? (l ++ names) = some (.file bytes) ↔
      t'.get? (l ++ names) = some (.file bytes)) :
    t.inPlaceManifest layout brand found l = t'.inPlaceManifest layout brand found l := by
  have hloader : layout.loaderRecords brand (t.get? (l ++ layout.loaderFile.lexical)) =
      layout.loaderRecords brand (t'.get? (l ++ layout.loaderFile.lexical)) :=
    loaderRecords_congr (h _)
  rw [inPlaceManifest, inPlaceManifest, brandedManifest_congr h, hloader]

end Tree

namespace Install

variable {t t' : Tree} {layout : Layout} {brand : Brand} {root : Path} {l : Location}
  {preview : Bool}

theorem brandTree_eq_ok (hr : t.PlainAt root l) (hplaced : layout.IsPlaced) {m : Manifest}
    (h : brandTree preview layout brand root t = (.ok m, t')) :
    m = t.inPlaceManifest layout brand (t.isFile (root.join layout.loaderFile)) l ∧
      (∀ names, t'.get? (l ++ names) = (t.get? (l ++ names)).map
        (if preview then id
          else layout.inPlaceEntry brand (t.isFile (root.join layout.loaderFile)) names)) ∧
      ∀ m, ¬l <+: m → t'.get? m = t.get? m := by
  obtain ⟨sources, t₁, hsources, hrest⟩ := bind_eq_ok.1 h
  obtain ⟨loader, t₂, hloader, hend⟩ := bind_eq_ok.1 hrest
  obtain ⟨rfl, rfl⟩ := pure_eq_ok.1 hend
  obtain ⟨rfl, hr₁, hbranded, helse⟩ := Files.brandSources_eq_ok hr (adapt_eq_ok.1 hsources)
  -- the loader is as it was when its turn comes
  have hsame : t₁.get? (l ++ layout.loaderFile.lexical) =
      t.get? (l ++ layout.loaderFile.lexical) := by
    rw [hbranded, Layout.brandedEntry_loaderFile hplaced, ite_self]
    exact Option.map_id_apply
  have hfound : t₁.isFile (root.join layout.loaderFile) = t.isFile (root.join layout.loaderFile) :=
    hr₁.isFile_join_congr hr hplaced.loaderFile (by rw [hsame])
  have hlast := Files.brandLoaderFile_eq_ok hr₁ hplaced.loaderFile (adapt_eq_ok.1 hloader)
  rw [hfound, hsame] at hlast
  generalize t.isFile (root.join layout.loaderFile) = found at hlast ⊢
  -- what is made of the loader, and what of all the rest
  have hthere : loader = (if found then
        layout.loaderRecords brand (t.get? (l ++ layout.loaderFile.lexical)) else []) ∧
      t₁.Sets (l ++ layout.loaderFile.lexical) ((t.get? (l ++ layout.loaderFile.lexical)).map
        (if preview then id else layout.inPlaceEntry brand found layout.loaderFile.lexical))
          t₂ := by
    cases found with
    | true =>
      obtain ⟨bytes, hbytes, rfl, hsets⟩ := hlast
      rw [hbytes]
      refine ⟨rfl, ?_⟩
      cases preview with
      | true => exact hsets
      | false =>
        rw [if_neg Bool.false_ne_true, Option.map_some, Layout.inPlaceEntry_loaderFile_found]
        exact hsets
    | false =>
      obtain ⟨rfl, rfl⟩ := hlast
      refine ⟨rfl, .same ?_⟩
      rw [hsame, Layout.inPlaceEntry_loaderFile_missing, ite_self]
      exact Option.map_id_apply.symm
  obtain ⟨hrecords, hsets⟩ := hthere
  refine ⟨by rw [Tree.inPlaceManifest, hrecords], fun names => ?_, fun m hm => ?_⟩
  · by_cases hnames : names = layout.loaderFile.lexical
    · rw [hnames, hsets.here]
    rw [hsets.elsewhere fun heq => hnames (List.append_cancel_left heq), hbranded]
    refine Option.map_congr fun e he => ?_
    cases preview with
    | true => rfl
    | false => exact (Layout.inPlaceEntry_of_ne hplaced (hr.isName he) hnames e).symm
  · rw [hsets.elsewhere (by rintro rfl; exact hm (List.prefix_append l _)), helse m hm]

/-! ### A whole run -/

variable {c c' : RunContext} {w w' v v' : World}

/-- A run has been declined, and then the files are what they were, or it has records. -/
theorem run_eq_ok_cases {r : Option Manifest} (h : run c w = (.ok r, w')) :
    (c.isPreview = false ∧ c.isForced = false ∧ r = none ∧ w'.tree = w.tree) ∨ ∃ m, r = some m := by
  obtain ⟨fault, hstop⟩ | ⟨_, resolution, template, report, _, -, -, -, -, hrun⟩ := run_cases c w
  · rw [hstop] at h
    cases h
  · rw [hrun] at h
    exact (goOn_eq_ok h).imp_right fun ⟨m, _, hr, _⟩ => ⟨m, hr⟩

/-- The work on the files of a run that goes on, in its parts. -/
theorem steps_of_run {m : Manifest} (h : run c w = (.ok (some m), w')) {template : Path}
    (htemplate : c.templateDir = .ok template) :
    ∃ explicit resolution, ∃ t₁ : Tree, c.explicitBrand? = .ok explicit ∧
      State.resolve explicit c.stateFile false w.tree = (.ok resolution, w.tree) ∧
      w.tree.isDirectory template = true ∧
      (if !c.isPreview && resolution.origin == .explicit then
          ∃ u, State.remember c.stateFile resolution.brand w.tree = (.ok u, t₁)
        else w.tree = t₁) ∧
      brandTree c.isPreview c.layout resolution.brand template t₁ = (.ok m, w'.tree) := by
  obtain ⟨fault, hstop⟩ | ⟨explicit, resolution, template', report, lines, hexplicit, hresolve,
    htemplate', hdir, hrun⟩ := run_cases c w
  · rw [hstop] at h
    cases h
  obtain rfl : template' = template := Except.ok.inj (htemplate'.symm.trans htemplate)
  rw [hrun] at h
  obtain ⟨-, -, hnone, -⟩ | ⟨m', w₁, hsome, hsame₁, hproceed⟩ := goOn_eq_ok h
  · cases hnone
  obtain rfl := Option.some.inj hsome
  unfold proceed at hproceed
  obtain ⟨w₂, hremember, hproceed⟩ := ite_bind_eq_ok.1 hproceed
  obtain ⟨w₃, hsame₃, hproceed⟩ := Action.exists_of_write_bind hproceed
  obtain ⟨m, w₄, hbrand, hproceed⟩ := Action.exists_of_files_bind hproceed
  obtain ⟨w₅, hsame₅, hproceed⟩ := Action.exists_of_write_bind hproceed
  obtain ⟨w₆, hsame₆, hproceed⟩ := Action.exists_of_write_bind hproceed
  obtain ⟨rfl, rfl⟩ := pure_eq_ok.1 hproceed
  rw [hsame₃, ← hsame₅, ← hsame₆] at hbrand
  refine ⟨explicit, resolution, w₂.tree, hexplicit, hresolve, hdir, ?_, hbrand⟩
  by_cases hwrites : (!c.isPreview && resolution.origin == .explicit) = true
  · rw [if_pos hwrites] at hremember ⊢
    rw [← hsame₁]
    exact ⟨_, (Action.files_eq_ok.1 hremember).1⟩
  · rw [if_neg hwrites] at hremember ⊢
    obtain ⟨-, rfl⟩ := pure_eq_ok.1 hremember
    exact hsame₁.symm

/-- What a run that goes on makes of the files, and its records. Whether the state file is written
first makes no difference to the template. -/
theorem run_eq_ok_some (hrooted : c.workingDir.rooted = true)
    (hplaced : c.layout.IsPlaced) (hplain : w.tree.Plain) {template : Path}
    (htemplate : c.templateDir = .ok template)
    (hstate : ¬template.lexical <+: c.stateFile.lexical) {m : Manifest}
    (h : run c w = (.ok (some m), w')) :
    w.tree.isDirectory template = true ∧
    ∃ explicit brand, c.explicitBrand? = .ok explicit ∧
      explicit.or (State.brand? w.tree c.stateFile) = some brand.name ∧
      m = w.tree.inPlaceManifest c.layout brand
        (w.tree.isFile (template.join c.layout.loaderFile)) template.lexical ∧
      (∀ names, w'.tree.get? (template.lexical ++ names) =
          (w.tree.get? (template.lexical ++ names)).map (if c.isPreview then id
            else c.layout.inPlaceEntry brand
              (w.tree.isFile (template.join c.layout.loaderFile)) names) ∨
        w.tree.MadeAround c.stateFile w'.tree (template.lexical ++ names)) ∧
      ∀ l, ¬template.lexical <+: l → l ≠ c.stateFile.lexical →
        w'.tree.get? l = w.tree.get? l ∨ w.tree.MadeAround c.stateFile w'.tree l := by
  obtain ⟨explicit, resolution, t₁, hexplicit, hresolve, hdir, hremember, hbrand⟩ :=
    steps_of_run h htemplate
  obtain ⟨hname, -⟩ :=
    State.resolve_eq_ok (P := fun _ => True) hplain (fun _ _ _ _ => trivial) hresolve
  have hr := hplain.plainAt hdir
  -- remembering the brand keeps all files of the template, and the way there
  obtain ⟨hplain₁, hways, hsaved⟩ :=
    State.remember_or_not hplain (RunContext.rooted_resolve hrooted _) hremember
  have hr₁ : t₁.PlainAt template template.lexical :=
    hplain₁.plainAt (Tree.isDirectory_iff.2 ⟨_, hways.find hr.found⟩)
  have hinside : ∀ names, t₁.get? (template.lexical ++ names) =
        w.tree.get? (template.lexical ++ names) ∨
      w.tree.MadeAround c.stateFile t₁ (template.lexical ++ names) := by
    intro names
    exact hsaved _ (by rintro heq; exact hstate (heq ▸ List.prefix_append _ names))
  have hfiles : ∀ names bytes, t₁.get? (template.lexical ++ names) = some (.file bytes) ↔
      w.tree.get? (template.lexical ++ names) = some (.file bytes) := by
    intro names bytes
    rcases hinside names with hsame | ⟨-, hnone, hnew⟩
    · rw [hsame]
    · simp [hnone, hnew]
  have hfound : t₁.isFile (template.join c.layout.loaderFile) =
      w.tree.isFile (template.join c.layout.loaderFile) :=
    hr₁.isFile_join_congr hr hplaced.loaderFile (exists_congr fun bytes => hfiles _ bytes)
  obtain ⟨rfl, hthere, helse⟩ := brandTree_eq_ok hr₁ hplaced hbrand
  rw [hfound] at hthere ⊢
  refine ⟨hdir, explicit, resolution.brand, hexplicit, hname, ?_, fun names => ?_,
    fun l hl hne => ?_⟩
  · rw [Tree.inPlaceManifest_congr hfiles]
  · rw [hthere]
    rcases hinside names with hsame | ⟨haround, hnone, hnew⟩
    · rw [hsame]
      exact Or.inl rfl
    · refine Or.inr ⟨haround, hnone, ?_⟩
      rw [hthere, hnew]
      cases c.isPreview <;> rfl
  · rcases hsaved l hne with hsame | ⟨haround, hnone, hnew⟩
    · exact Or.inl ((helse l hl).trans hsame)
    · exact Or.inr ⟨haround, hnone, (helse l hl).trans hnew⟩

/-- A run that asks nothing goes on. -/
theorem run_eq_ok (hgo : c.isPreview = true ∨ c.isForced = true)
    (hrooted : c.workingDir.rooted = true)
    (hplaced : c.layout.IsPlaced) (hplain : w.tree.Plain) {template : Path}
    (htemplate : c.templateDir = .ok template)
    (hstate : ¬template.lexical <+: c.stateFile.lexical) {r : Option Manifest}
    (h : run c w = (.ok r, w')) :
    w.tree.isDirectory template = true ∧
    ∃ explicit brand, c.explicitBrand? = .ok explicit ∧
      explicit.or (State.brand? w.tree c.stateFile) = some brand.name ∧
      r = some (w.tree.inPlaceManifest c.layout brand
        (w.tree.isFile (template.join c.layout.loaderFile)) template.lexical) ∧
      (∀ names, w'.tree.get? (template.lexical ++ names) =
          (w.tree.get? (template.lexical ++ names)).map (if c.isPreview then id
            else c.layout.inPlaceEntry brand
              (w.tree.isFile (template.join c.layout.loaderFile)) names) ∨
        w.tree.MadeAround c.stateFile w'.tree (template.lexical ++ names)) ∧
      ∀ l, ¬template.lexical <+: l → l ≠ c.stateFile.lexical →
        w'.tree.get? l = w.tree.get? l ∨ w.tree.MadeAround c.stateFile w'.tree l := by
  obtain ⟨hpreview, hforced, -⟩ | ⟨m, rfl⟩ := run_eq_ok_cases h
  · rw [hpreview, hforced] at hgo
    simp at hgo
  · obtain ⟨hdir, explicit, brand, hexplicit, hname, rfl, hrest⟩ :=
      run_eq_ok_some hrooted hplaced hplain htemplate hstate h
    exact ⟨hdir, explicit, brand, hexplicit, hname, rfl, hrest⟩

/-- A forced run and its preview are about the same brand and the same template. -/
theorem agree_of_load {home : Option String} {workingDir : Path} {tokens : List String} {t : Tree}
    (h : RunContext.load home workingDir (.parse (tokens ++ ["--force"])) t = .ok c)
    (h' : RunContext.load home workingDir (.parse (tokens ++ ["--dry-run"])) t = .ok c') :
    c.isForced = true ∧ c'.isPreview = true ∧ c'.explicitBrand? = c.explicitBrand? ∧
      c'.templateDir = c.templateDir ∧ c'.layout = c.layout ∧ c'.stateFile = c.stateFile := by
  obtain ⟨hoptions, rfl⟩ := RunContext.eq_of_load h h'
  have hforce : c.options = Options.parse tokens ++ [("force", .flag)] :=
    hoptions.trans (Options.parse_concat_flag tokens (by decide) (by decide) (by decide))
  have hdry : Options.parse (tokens ++ ["--dry-run"]) =
      Options.parse tokens ++ [("dry-run", .flag)] :=
    Options.parse_concat_flag tokens (by decide) (by decide) (by decide)
  rw [hdry]
  have hvalue : ∀ key, key ≠ "force" → key ≠ "dry-run" →
      Options.value? (Options.parse tokens ++ [("dry-run", .flag)]) key = c.options.value? key := by
    intro key hkey hkey'
    rw [hforce, Options.value?_concat_flag hkey, Options.value?_concat_flag hkey']
  refine ⟨?_, Options.has_concat_flag, hvalue "prefix" (by decide) (by decide), ?_, rfl, rfl⟩
  · rw [RunContext.isForced, hforce]
    exact Options.has_concat_flag
  · unfold RunContext.templateDir RunContext.wordOf?
    rw [hvalue "source" (by decide) (by decide)]
    rfl

/-- A forced run and its preview have the same records: those of the files whose text branding by
their role changes. In the template the forced run changes these files and no others, and elsewhere
the state file. Beyond that there may be new directories that the state file lies in. -/
theorem run_forced {home : Option String} {workingDir : Path} {tokens : List String} {t : Tree}
    (hload : RunContext.load home workingDir (.parse (tokens ++ ["--force"])) t = .ok c)
    (hload' : RunContext.load home workingDir (.parse (tokens ++ ["--dry-run"])) t = .ok c')
    (hrooted : workingDir.rooted = true) (hreal : c.isPreview = false) (hplain : w.tree.Plain)
    {template : Path} (htemplate : c.templateDir = .ok template)
    (hstate : ¬template.lexical <+: c.stateFile.lexical) {r r' : Option Manifest}
    (h : run c w = (.ok r, w')) (hsame : v.tree = w.tree) (h' : run c' v = (.ok r', v')) :
    ∃ explicit brand m, c.explicitBrand? = .ok explicit ∧
      explicit.or (State.brand? w.tree c.stateFile) = some brand.name ∧
      r = some m ∧ r' = some m ∧
      (∀ record, record ∈ m ↔ ∃ names role text,
        w.tree.get? (template.lexical ++ names) = some (.file text.toUTF8) ∧
        c.layout.inPlaceRole? (w.tree.isFile (template.join c.layout.loaderFile)) names =
          some role ∧
        brandedText brand role text ≠ text ∧ record = ⟨.ofNames false names, true, role⟩) ∧
      (∀ names, w'.tree.get? (template.lexical ++ names) =
          (w.tree.get? (template.lexical ++ names)).map (c.layout.inPlaceEntry brand
            (w.tree.isFile (template.join c.layout.loaderFile)) names) ∨
        w.tree.MadeAround c.stateFile w'.tree (template.lexical ++ names)) ∧
      ∀ l, ¬template.lexical <+: l → l ≠ c.stateFile.lexical →
        w'.tree.get? l = w.tree.get? l ∨ w.tree.MadeAround c.stateFile w'.tree l := by
  obtain ⟨rfl, hplaced⟩ := RunContext.of_load hload
  obtain ⟨hforced, hpreview, hexplicit, hsource, hlayout, hstateFile⟩ := agree_of_load hload hload'
  obtain ⟨hdir, explicit, brand, hanswer, hname, rfl, hinside, houtside⟩ :=
    run_eq_ok (Or.inr hforced) hrooted hplaced hplain htemplate hstate h
  have hrooted' : c'.workingDir.rooted = true := by rw [(RunContext.of_load hload').1, hrooted]
  obtain ⟨-, explicit', brand', hanswer', hname', rfl, -⟩ :=
    run_eq_ok (Or.inl hpreview) hrooted' (hlayout ▸ hplaced) (hsame ▸ hplain)
      (hsource.trans htemplate) (hstateFile ▸ hstate) h'
  obtain rfl : explicit = explicit' := by
    rw [hexplicit, hanswer] at hanswer'
    exact Except.ok.inj hanswer'
  obtain rfl : brand = brand' := by
    rw [hsame, hstateFile, hname] at hname'
    exact Brand.eq_of_name (Option.some.inj hname')
  refine ⟨explicit, brand, _, hanswer, hname, rfl, by rw [hsame, hlayout],
    fun record => (hplain.plainAt hdir).mem_inPlaceManifest hplaced, ?_, houtside⟩
  rwa [hreal] at hinside

/-- A template with a source and a loader. -/
private def plainTree : Tree := .putAll ∅
  [(["src"], .directory), (["src", "App.php"], .file "<?php\nnamespace WPLite;\n".toUTF8),
    (["src", "autoload.php"], .file "<?php\n$prefix = 'WPLite\\\\';\n".toUTF8)]

private theorem plain_plainTree : plainTree.Plain := Tree.plain_empty.putAll (by simp) (by decide)

private def plainWorld : World := .typed .empty plainTree

/-- A run of either kind. -/
private def plainContext (flag : String) : RunContext := .inRoot {} ["--prefix=Acme", flag]

/-- The source has a record, and is branded as a module. -/
theorem run_forced_module : ∃ m w' v',
    run (plainContext "--force") plainWorld = (.ok (some m), w') ∧
    run (plainContext "--dry-run") plainWorld = (.ok (some m), v') ∧
    ⟨.ofString "App.php", true, .normal⟩ ∈ m ∧
    w'.tree.get? ["src", "App.php"] =
      some (.file "<?php\nnamespace Acme\\WPLite;\n".toUTF8) := by
  obtain ⟨r, w', h⟩ := exists_of_isOk (x := run (plainContext "--force")) (s := plainWorld)
    (by decide +kernel)
  obtain ⟨r', v', h'⟩ := exists_of_isOk (x := run (plainContext "--dry-run")) (s := plainWorld)
    (by decide +kernel)
  have hsettings : Settings.load none plainTree (.ofString "/") = .ok {} := by decide +kernel
  have hload := RunContext.load_inRoot hsettings (["--prefix=Acme"] ++ ["--force"])
  have hload' := RunContext.load_inRoot hsettings (["--prefix=Acme"] ++ ["--dry-run"])
  have htemplate : (plainContext "--force").templateDir = .ok (.ofString "/src") := by
    decide +kernel
  have hacme : (plainContext "--force").explicitBrand? = .ok (some "Acme") := by decide +kernel
  obtain ⟨explicit, brand, m, hexplicit, hname, rfl, rfl, hrecords, hentries, -⟩ :=
    run_forced hload hload' rfl (by decide +kernel) plain_plainTree htemplate (by decide +kernel)
      h rfl h'
  obtain rfl := Except.ok.inj (hacme.symm.trans hexplicit)
  obtain rfl : brand = ⟨"Acme", by decide⟩ := Brand.eq_of_name (Option.some.inj hname).symm
  refine ⟨m, w', v', h, h', (hrecords _).2 ⟨["App.php"], .normal,
    "<?php\nnamespace WPLite;\n", ?_, ?_, ?_, ?_⟩, ?_⟩
  · decide +kernel
  · decide +kernel
  · decide +kernel
  · decide +kernel
  · refine ((hentries ["App.php"]).resolve_right fun hnew => ?_).trans ?_
    · exact absurd hnew.2.1 (by decide +kernel)
    · decide +kernel

/-- The text of a helper, and a project that takes it for the entry helper of its template, though
it is no source by its name. -/
private def incText : String := "<?php\n\\WPLite\\App::get();\n"

private def incTree : Tree := .putAll ∅
  [(["src"], .directory), (["src", "helpers.inc"], .file incText.toUTF8),
    (["nsbrand.toml"], .file "[template]\nentry_helper = \"helpers.inc\"\n".toUTF8)]

private def incContext (flag : String) : RunContext :=
  .inRoot { template := { entryHelper := "helpers.inc" } } ["--prefix=Acme", flag]

private theorem plain_incTree : incTree.Plain := Tree.plain_empty.putAll (by simp) (by decide)

/-- An entry helper that is no source has no record and stays as it was, though branding would
change it. -/
theorem run_forced_entryHelper_left :
    incTree.Plain ∧ ¬(Path.ofString "/src").lexical <+: (incContext "--force").stateFile.lexical ∧
      RunContext.load none (.ofString "/") (.parse ["--prefix=Acme", "--force"]) incTree =
        .ok (incContext "--force") ∧
      RunContext.load none (.ofString "/") (.parse ["--prefix=Acme", "--dry-run"]) incTree =
        .ok (incContext "--dry-run") ∧
      (run (incContext "--force") (.typed .empty incTree)).1 = .ok (some []) ∧
      (run (incContext "--dry-run") (.typed .empty incTree)).1 = .ok (some []) ∧
      incTree.get? ["src", "helpers.inc"] = some (.file incText.toUTF8) ∧
      brandedText ⟨"Acme", by decide⟩ .entryHelper incText ≠ incText ∧
      (run (incContext "--force") (.typed .empty incTree)).2.tree.get?
        ["src", "helpers.inc"] = some (.file incText.toUTF8) := by
  refine ⟨plain_incTree, ?_, ?_, ?_, ?_, ?_, ?_, ?_, ?_⟩
  · decide +kernel
  · decide +kernel
  · decide +kernel
  · decide +kernel
  · decide +kernel
  · decide +kernel
  · decide +kernel
  · decide +kernel

end Install

end Branding
