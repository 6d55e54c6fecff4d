import Branding.Files.Basic
import Branding.Proofs.Tree.Region

/-!
# Files written and removed

A file is written together with the directories it lies in, and so more than one location can become
different. Below a directory without links these are the location of the file and those between the
two, and the latter are directories afterwards. Everything else is left alone.

## Main definitions

* `Tree.Vacant` — a place in which a directory is to be made

## Main results

* `Files.ensureDirectory_eq_ok`, `Files.moves_ensureDirectory` — a directory that is to be there
* `Files.writeText_eq_ok` — a file that was written, in a tree without links
* `Files.writeText_elsewhere` — whatever comes of it, nothing else becomes different
* `Files.writeText_again` — a file that was written can be written again
* `Files.writeText_places`, `Files.confined_writeText` — a file below a directory
* `Files.readText?_eq_ok` — a file that was read
-/

namespace Branding

namespace Files

variable {P : Location → Prop} {t t' : Tree} {p : Path}

/-! ### Directories -/

/-- What each directory keeps when it is made is kept when one is made with all that it lies in. -/
theorem moves_ensureDirectory_of {R : Tree → Tree → Prop} [Std.Refl R] [IsTrans Tree R]
    (h : ∀ q ∈ p :: p.enclosing, Moves R (Edit.makeDirectory q)) : Moves R (ensureDirectory p) := by
  refine Moves.bind Moves.get fun t => Moves.ite (fun _ => ?_) fun _ => ?_
  · exact Moves.adapt (Moves.adapt (Edit.moves_makeEach_of h) _) _
  · exact Moves.bind Moves.get fun t => Moves.ite (fun _ => Moves.throw _) fun _ => Moves.pure _

theorem keepsWays_ensureDirectory (p : Path) : Moves Tree.KeepsWays (ensureDirectory p) :=
  moves_ensureDirectory_of fun q _ => Edit.keepsWays_makeDirectory q

theorem within_ensureDirectory (p : Path) : Moves Tree.Within (ensureDirectory p) :=
  moves_ensureDirectory_of fun q _ => Edit.within_makeDirectory q

theorem grows_ensureDirectory (p : Path) : Moves (Tree.Grows fun _ => True) (ensureDirectory p) :=
  moves_ensureDirectory_of fun q _ => Edit.grows_makeDirectory q

theorem named_ensureDirectory (p : Path) : Moves (Keeps Tree.Named) (ensureDirectory p) :=
  moves_ensureDirectory_of fun q _ => Edit.named_makeDirectory q

theorem plain_ensureDirectory (p : Path) : Moves (Keeps Tree.Plain) (ensureDirectory p) :=
  moves_ensureDirectory_of fun q _ => Edit.plain_makeDirectory q

theorem ensureDirectory_found (hne : p.text ≠ "") {u : Unit}
    (h : ensureDirectory p t = (.ok u, t')) : ∃ l, t'.find p = .ok (l, .directory) := by
  have hrest := get_bind_eq_ok.1 h
  split at hrest
  · exact Edit.makeEach_found hne (adapt_eq_ok.1 (adapt_eq_ok.1 hrest))
  · have hrest := get_bind_eq_ok.1 hrest
    obtain ⟨hdir, hrest⟩ := ite_throw_eq_ok.1 hrest
    obtain ⟨-, rfl⟩ := pure_eq_ok.1 hrest
    exact Tree.isDirectory_iff.1 (by simpa using hdir)

/-- In a tree without links a directory that is to be there is where its path says. -/
theorem plainAt_of_ensureDirectory (ht : t.Plain) (hne : p.text ≠ "") {u : Unit}
    (h : ensureDirectory p t = (.ok u, t')) : t'.PlainAt p p.lexical := by
  obtain ⟨l, hfind⟩ := ensureDirectory_found hne h
  exact ((plain_ensureDirectory p).of_eq_ok h ht).plainAt (Tree.isDirectory_iff.2 ⟨l, hfind⟩)

/-- A directory that is there need not be made. -/
theorem ensureDirectory_of_found {l : Location} (h : t.find p = .ok (l, .directory)) :
    ensureDirectory p t = (.ok (), t) := by
  have hhas : t.has p = true := Tree.has_iff.2 ⟨l, _, h⟩
  have hdir : t.isDirectory p = true := Tree.isDirectory_iff.2 ⟨l, h⟩
  rw [ensureDirectory, get_bind_apply, if_neg (by simp [hhas]), get_bind_apply,
    if_neg (by simp [hdir])]
  rfl

theorem moves_ensureDirectory (hP : ∀ q ∈ p :: p.enclosing, P q.lexical) :
    Moves (Tree.Makes P) (ensureDirectory p) :=
  moves_ensureDirectory_of fun q hq => Edit.moves_makeDirectory (hP q hq)

theorem ensureDirectory_eq_ok (ht : t.Plain) (hne : p.text ≠ "") {u : Unit}
    (h : ensureDirectory p t = (.ok u, t')) :
    t'.get? p.lexical = some .directory ∧ p.Admissible := by
  obtain ⟨l, hfind⟩ := ensureDirectory_found hne h
  have hmoves : Moves (Tree.Makes fun _ => True) (ensureDirectory p) :=
    moves_ensureDirectory fun _ _ => trivial
  exact ((hmoves.of_eq_ok h ht).1.find_eq_ok hfind).2

/-! ### Files -/

/-- A file is written after the directories that it lies in have been made. -/
theorem writeText_steps {R : Tree → Tree → Prop} [Std.Refl R]
    (hparent : ∀ q ∈ p.enclosing, Moves R (ensureDirectory q)) {text : String} {u : Unit}
    (h : writeText p text t = (.ok u, t')) :
    ∃ t₁ u', R t t₁ ∧ Edit.writeFile p text.toUTF8 t₁ = (.ok u', t') := by
  unfold writeText at h
  cases hfirst : p.parent? with
  | none =>
    rw [hfirst] at h
    exact ⟨t, u, Std.Refl.refl t, adapt_eq_ok.1 (adapt_eq_ok.1 h)⟩
  | some parent =>
    rw [hfirst] at h
    obtain ⟨t₁, hensure, hrest⟩ := ite_bind_eq_ok.1 h
    have hmem : parent ∈ p.enclosing := List.mem_of_mem_head? (by rw [← Path.parent?, hfirst]; rfl)
    have hmoves : Moves R
        (if parent.text ≠ "" then ensureDirectory parent else Pure.pure PUnit.unit) :=
      Moves.ite (fun _ => hparent parent hmem) fun _ => Moves.pure _
    exact ⟨t₁, u, hmoves.of_eq_ok hensure, adapt_eq_ok.1 (adapt_eq_ok.1 hrest)⟩

theorem moves_writeText_of {R : Tree → Tree → Prop} [Std.Refl R] [IsTrans Tree R] {text : String}
    (hparent : ∀ q ∈ p.enclosing, Moves R (ensureDirectory q))
    (hwrite : Moves R (Edit.writeFile p text.toUTF8)) : Moves R (writeText p text) := by
  have hlast : Moves R (during (.writingFile p) (edit (Edit.writeFile p text.toUTF8))) :=
    Moves.adapt (Moves.adapt hwrite _) _
  unfold writeText
  cases hfirst : p.parent? with
  | none => exact hlast
  | some parent =>
    have hmem : parent ∈ p.enclosing := List.mem_of_mem_head? (by rw [← Path.parent?, hfirst]; rfl)
    exact Moves.ite (fun _ => Moves.bind (hparent parent hmem) fun _ => hlast) fun _ => hlast

theorem keepsWays_writeText (p : Path) (text : String) :
    Moves Tree.KeepsWays (writeText p text) :=
  moves_writeText_of (fun q _ => keepsWays_ensureDirectory q) (Edit.keepsWays_writeFile p _)

/-- A file that was written is found. -/
theorem writeText_found {text : String} {u : Unit} (h : writeText p text t = (.ok u, t')) :
    ∃ l, t'.find p = .ok (l, .file text.toUTF8) := by
  obtain ⟨t₁, u', -, hwrite⟩ :=
    writeText_steps (R := Tree.KeepsWays) (fun q _ => keepsWays_ensureDirectory q) h
  obtain ⟨l, hfind, -⟩ := Edit.writeFile_found hwrite
  exact ⟨l, hfind⟩

/-- A file that was written can be written again, which changes nothing. -/
theorem writeText_again {text : String} {u : Unit} (h : writeText p text t = (.ok u, t')) :
    writeText p text t' = (.ok (), t') := by
  have hagain : ∀ {s : Tree},
      during (.writingFile p) (edit (Edit.writeFile p text.toUTF8)) s = (.ok u, t') →
      during (.writingFile p) (edit (Edit.writeFile p text.toUTF8)) t' = (.ok (), t') := by
    intro s hwrite
    obtain ⟨-, -, -, hwritten⟩ := Edit.writeFile_steady (adapt_eq_ok.1 (adapt_eq_ok.1 hwrite))
    exact adapt_eq_ok.2 (adapt_eq_ok.2 hwritten)
  unfold writeText at h ⊢
  cases hfirst : p.parent? with
  | none =>
    rw [hfirst] at h
    exact hagain h
  | some parent =>
    rw [hfirst] at h
    obtain ⟨t₁, hensure, hwrite⟩ := ite_bind_eq_ok.1 h
    refine ite_bind_eq_ok.2 ⟨t', ?_, hagain hwrite⟩
    split at hensure
    next hne =>
      rw [if_pos hne]
      obtain ⟨l, hfind⟩ := ensureDirectory_found hne hensure
      have hways := (Edit.keepsWays_writeFile p _).of_eq_ok (adapt_eq_ok.1 (adapt_eq_ok.1 hwrite))
      exact ensureDirectory_of_found (hways.find hfind)
    next hempty =>
      rw [if_neg hempty]
      rfl

theorem named_writeText (p : Path) (text : String) : Moves (Keeps Tree.Named) (writeText p text) :=
  moves_writeText_of (fun q _ => named_ensureDirectory q) (Edit.named_writeFile p _)

theorem plain_writeText (p : Path) (text : String) : Moves (Keeps Tree.Plain) (writeText p text) :=
  moves_writeText_of (fun q _ => plain_ensureDirectory q) (Edit.plain_writeFile p _)

/-- Nothing becomes different but what is found by the path of the file, and directories may be
new. -/
theorem writeText_elsewhere (p : Path) (text : String) (t : Tree) (m : Location) :
    (writeText p text t).2.get? m = t.get? m ∨
      t.get? m = none ∧ (writeText p text t).2.get? m = some .directory ∨
        ∃ e', (writeText p text t).2.find p = .ok (m, e') := by
  have hwrite : ∀ {s : Tree}, s.get? m = t.get? m ∨ t.get? m = none ∧ s.get? m = some .directory →
      let s' := (during (.writingFile p) (edit (Edit.writeFile p text.toUTF8)) s).2
      s'.get? m = t.get? m ∨ t.get? m = none ∧ s'.get? m = some .directory ∨
        ∃ e', s'.find p = .ok (m, e') := by
    intro s hs s'
    rcases Edit.writeFile_elsewhere p text.toUTF8 s m with hsame | hfile
    · have hsame : s'.get? m = s.get? m := hsame
      rw [hsame]
      exact hs.imp_right Or.inl
    · exact Or.inr (Or.inr hfile)
  unfold writeText
  cases p.parent? with
  | none => exact hwrite (Or.inl rfl)
  | some parent =>
    have hmade : (ensureDirectory parent t).2.get? m = t.get? m ∨
        t.get? m = none ∧ (ensureDirectory parent t).2.get? m = some .directory :=
      (grows_ensureDirectory parent t m).imp_right And.right
    by_cases hne : parent.text ≠ ""
    · simp only [if_pos hne]
      refine after_bind (P := fun s : Tree => s.get? m = t.get? m ∨
        t.get? m = none ∧ s.get? m = some .directory ∨ ∃ e', s.find p = .ok (m, e'))
        (hmade.imp_right Or.inl) fun u s hrun _ => ?_
      rw [hrun] at hmade
      exact hwrite hmade
    · simp only [if_neg hne]
      exact hwrite (Or.inl rfl)

theorem writeText_eq_ok (ht : t.Plain) (hP : ∀ q ∈ p.enclosing, ∀ r ∈ q :: q.enclosing, P r.lexical)
    {text : String} {u : Unit} (h : writeText p text t = (.ok u, t')) :
    ∃ t₁, t₁.Plain ∧ t.Grows P t₁ ∧ t₁.get? p.lexical ≠ some .directory ∧
      t₁.Sets p.lexical (some (.file text.toUTF8)) t' ∧ p.Admissible := by
  have hparent : ∀ q ∈ p.enclosing, Moves (Tree.Makes P) (ensureDirectory q) :=
    fun q hq => moves_ensureDirectory (hP q hq)
  obtain ⟨t₁, u', hmakes, hwrite⟩ := writeText_steps hparent h
  obtain ⟨ht₁, hgrows⟩ := hmakes ht
  exact ⟨t₁, ht₁, hgrows, Edit.writeFile_eq_ok ht₁ hwrite⟩

/-! ### Below a directory -/

section Region

variable {root q : Path} {l : Location} {names : List String}

/-- The directories around a file below a directory are made inside it. -/
theorem makesAt_ensureDirectory (hrooted : root.rooted = true) (hne : names ≠ [])
    (hnames : ∀ name ∈ names, IsName name) (hq : q ∈ (root.descend names).enclosing) :
    Moves (Tree.MakesAt root l fun m => l <+: m ∧ m <+: l ++ names) (ensureDirectory q) := by
  have hdescend : (root.descend names).rooted = true := by rw [Path.rooted_descend, hrooted]
  refine moves_ensureDirectory_of fun r hr => Edit.makesAt_makeDirectory hrooted hne hnames ?_
  rcases List.mem_cons.1 hr with rfl | hr
  · exact hq
  · exact Path.mem_enclosing_trans hdescend hq hr

theorem confined_writeText (hrooted : root.rooted = true) (hne : names ≠ [])
    (hnames : ∀ name ∈ names, IsName name) (text : String) :
    Moves (Tree.Confined root l) (writeText (root.descend names) text) := by
  refine moves_writeText_of (fun q hq t => ?_) (Edit.confined_writeFile hne hnames _)
  exact (makesAt_ensureDirectory hrooted hne hnames hq t).confined fun m hm => hm.1

/-- What there is after a file below a directory has been written. -/
theorem writeText_places (hr : t.PlainAt root l) (hrooted : root.rooted = true) (hne : names ≠ [])
    (hnames : ∀ name ∈ names, IsName name) {text : String} {u : Unit}
    (h : writeText (root.descend names) text t = (.ok u, t')) :
    t'.PlainAt root l ∧ t.Places (l ++ names) (.file text.toUTF8) t' := by
  refine ⟨((confined_writeText hrooted hne hnames text).of_eq_ok h hr).1, ?_⟩
  obtain ⟨t₁, u', hmakes, hwrite⟩ :=
    writeText_steps (fun q hq => makesAt_ensureDirectory (l := l) hrooted hne hnames hq) h
  obtain ⟨hr₁, hgrows⟩ := hmakes hr
  obtain ⟨-, -, hsets⟩ := Edit.writeFile_sets hr₁ hne hnames hwrite
  intro m
  by_cases hm : m = l ++ names
  · rw [if_pos hm, hm, hsets.here]
  rw [if_neg hm]
  by_cases hle : m <+: l ++ names
  · rw [if_pos hle, Tree.get?_eq_directory_of_prefix hsets.here hle hm]
  · rw [if_neg hle, hsets.elsewhere hm, hgrows.get?_of_not fun hin => hle hin.2]

end Region

/-! ### Removing and reading -/

theorem removeFile_steps {removed : Bool} (h : removeFile p t = (.ok removed, t')) :
    t.has p = true ∧ (∃ u, Edit.unlink p t = (.ok u, t')) ∨ t.has p = false ∧ t = t' := by
  have hrest := get_bind_eq_ok.1 h
  by_cases hhas : t.has p = true
  · rw [if_pos hhas] at hrest
    obtain ⟨u, t₁, hunlink, hrest⟩ := bind_eq_ok.1 hrest
    obtain ⟨-, rfl⟩ := pure_eq_ok.1 hrest
    exact Or.inl ⟨hhas, u, adapt_eq_ok.1 (adapt_eq_ok.1 hunlink)⟩
  · rw [if_neg hhas] at hrest
    exact Or.inr ⟨by simpa using hhas, (pure_eq_ok.1 hrest).2⟩

theorem confined_removeFile {root : Path} {l : Location} {names : List String} (hne : names ≠ [])
    (hnames : ∀ name ∈ names, IsName name) :
    Moves (Tree.Confined root l) (removeFile (root.descend names)) := by
  refine Moves.bind Moves.get fun t => Moves.ite (fun _ => ?_) fun _ => Moves.pure _
  exact Moves.bind (Moves.adapt (Moves.adapt (Edit.confined_unlink hne hnames) _) _)
    fun _ => Moves.pure _

theorem moves_readText? (p : Path) : Moves Eq (readText? p) := by
  refine Moves.bind (Moves.bind Moves.get fun t => Moves.adapt ?_ _) fun bytes => Moves.pure _
  cases t.readBytes p with
  | ok bytes => exact Moves.pure bytes
  | error r => exact Moves.throw _

/-- The text of a file that is read is that of its bytes. -/
theorem readText?_eq_ok {text : Option String} (h : readText? p t = (.ok text, t')) :
    t = t' ∧ ∃ l bytes, t.find p = .ok (l, .file bytes) ∧ text = String.fromUTF8? bytes := by
  obtain ⟨bytes, t₁, hbytes, hrest⟩ := bind_eq_ok.1 h
  obtain ⟨rfl, rfl⟩ := pure_eq_ok.1 hrest
  have hanswer := get_bind_eq_ok.1 hbytes
  have hread := adapt_eq_ok.1 hanswer
  cases hfound : t.readBytes p with
  | error r =>
    rw [hfound] at hread
    exact absurd hread throw_ne_ok
  | ok found =>
    rw [hfound] at hread
    obtain ⟨rfl, rfl⟩ := pure_eq_ok.1 hread
    obtain ⟨l, hfind⟩ := Tree.exists_find_of_readBytes hfound
    exact ⟨rfl, l, found, hfind, rfl⟩

end Files

/-! ### A place for a directory -/

/-- Nothing is where a path would lead, so a directory that is made by the path is made there, with
those around it as far as they are missing, and nothing is in it. -/
structure Tree.Vacant (t : Tree) (p : Path) (l : Location) : Prop where
  grows : t.Grows (· <+: l) (Files.ensureDirectory p t).2
  made : ∀ {u : Unit} {t' : Tree}, Files.ensureDirectory p t = (.ok u, t') →
    t'.PlainAt p l ∧ ∀ more, more ≠ [] → t'.get? (l ++ more) = none

/-- In a tree without links the place is where the path says. -/
theorem Tree.Vacant.eq_lexical {t t' : Tree} {p : Path} {l : Location} (h : t.Vacant p l)
    (ht : t.Plain) {u : Unit} (hrun : Files.ensureDirectory p t = (.ok u, t')) : l = p.lexical :=
  (((Files.plain_ensureDirectory p).of_eq_ok hrun ht).find_eq_ok (h.made hrun).1.found).1

end Branding
