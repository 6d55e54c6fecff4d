import Branding.Proofs.Files.Sources

/-!
# What becomes of the loader

A generated loader is put in its place whatever is there, and left alone where it is there already;
both come to the same. The external strategy takes the loader of the template away first, and it has
to find it. That the file is there does not suffice, since the system may refuse the path. But
whatever is in the copy was put there by the same path.

Branding in place keeps the loader that is there and brands its text. It is looked for first, and
where the system refuses its path it counts as missing.

## Main definitions

* `Layout.loaderText` — the loader that a build generates

## Main results

* `Files.placeLoader_places` — a generated text is in its place
* `Files.removeFile_sets` — a file that is taken away is gone
* `Files.generateLoader_get?` — what there is after the loader has been generated
* `Files.generateLoader_record` — its record
* `Files.brandLoaderFile_eq_ok` — the loader that is there, branded
-/

namespace Branding

/-- The loader that a build generates. -/
def Layout.loaderText (layout : Layout) (brand : Brand) (strategy : LoaderStrategy) : String :=
  .ofList ((layout.loaderFields brand).render strategy)

namespace Files

variable {t t' : Tree} {layout : Layout} {brand : Brand} {strategy : LoaderStrategy}
  {root relative : Path} {l : Location} {preview : Bool}

/-! ### A generated text -/

/-- A generated text has a record of its place, whatever is there. -/
theorem placeLoader_record {text : String} {record : FileRecord}
    (h : placeLoader preview root relative text t = (.ok record, t')) :
    record.path = relative ∧ record.role = .loader := by
  have hend : ∀ {changed : Bool} {s : Tree}, (if (changed && !preview) = true then
      writeText (root.join relative) text >>= fun _ => pure ⟨relative, changed, .loader⟩
      else pure ⟨relative, changed, .loader⟩ : Files FileRecord) s = (.ok record, t') →
      record.path = relative ∧ record.role = .loader := by
    intro changed s hrun
    split at hrun
    · obtain ⟨u, s', -, hend⟩ := bind_eq_ok.1 hrun
      obtain ⟨rfl, -⟩ := pure_eq_ok.1 hend
      exact ⟨rfl, rfl⟩
    · obtain ⟨rfl, -⟩ := pure_eq_ok.1 hrun
      exact ⟨rfl, rfl⟩
  have hrest := get_bind_eq_ok.1 h
  by_cases hfile : t.isFile (root.join relative) = true
  · rw [if_pos hfile] at hrest
    obtain ⟨read, s, -, hrest⟩ := bind_eq_ok.1 hrest
    exact hend hrest
  · rw [if_neg hfile] at hrest
    exact hend hrest

/-- Whether a generated text differs from what is in its place. -/
theorem placeLoader_steps (hr : t.PlainAt root l) (hplace : relative.IsPlace) {text : String}
    {record : FileRecord} (h : placeLoader preview root relative text t = (.ok record, t')) :
    (record.changed = false ↔ (root.join relative).Admissible ∧
        t.get? (l ++ relative.lexical) = some (.file text.toUTF8)) ∧
      if record.changed && !preview then
        ∃ u, writeText (root.join relative) text t = (.ok u, t')
      else t = t' := by
  have hnames : ∀ name ∈ relative.lexical, IsName name := fun _ => Path.isName_of_mem_lexical
  rw [hplace.join_eq_descend]
  have hrest := get_bind_eq_ok.1 h
  rw [hplace.join_eq_descend] at hrest
  obtain ⟨changed, hchanged, hrest⟩ : ∃ changed : Bool,
      (changed = false ↔ (root.descend relative.lexical).Admissible ∧
        t.get? (l ++ relative.lexical) = some (.file text.toUTF8)) ∧
      (if (changed && !preview) = true then
          writeText (root.descend relative.lexical) text >>=
            fun _ => pure ⟨relative, changed, .loader⟩
        else pure ⟨relative, changed, .loader⟩ : Files FileRecord) t = (.ok record, t') := by
    by_cases hfile : t.isFile (root.descend relative.lexical) = true
    · rw [if_pos hfile] at hrest
      obtain ⟨read, t₁, hread, hrest⟩ := bind_eq_ok.1 hrest
      obtain ⟨rfl, m, bytes, hfind, rfl⟩ := readText?_eq_ok hread
      obtain ⟨hadm, -, hbytes⟩ := (hr.find_descend_iff hnames).1 hfind
      refine ⟨String.fromUTF8? bytes != some text, ?_, hrest⟩
      rw [bne_eq_false_iff_eq, fromUTF8?_eq_some_iff, hbytes]
      simp [hadm]
    · rw [if_neg hfile] at hrest
      refine ⟨true, ?_, hrest⟩
      refine ⟨nofun, fun ⟨hadm, hbytes⟩ => absurd ?_ hfile⟩
      exact Tree.isFile_iff.2 ⟨_, _, (hr.find_descend_iff hnames).2 ⟨hadm, rfl, hbytes⟩⟩
  by_cases hwritten : (changed && !preview) = true
  · rw [if_pos hwritten] at hrest
    obtain ⟨u, t₁, hwrite, hend⟩ := bind_eq_ok.1 hrest
    obtain ⟨rfl, rfl⟩ := pure_eq_ok.1 hend
    exact ⟨hchanged, by rw [if_pos hwritten]; exact ⟨u, hwrite⟩⟩
  · rw [if_neg hwritten] at hrest
    obtain ⟨rfl, rfl⟩ := pure_eq_ok.1 hrest
    exact ⟨hchanged, by rw [if_neg hwritten]⟩

/-- A generated text is in its place, in directories, and nothing else has become different. -/
theorem placeLoader_places (hr : t.PlainAt root l) (hrooted : root.rooted = true)
    (hplace : relative.IsPlace) {text : String} {record : FileRecord}
    (h : placeLoader false root relative text t = (.ok record, t')) :
    t'.PlainAt root l ∧ t.Places (l ++ relative.lexical) (.file text.toUTF8) t' := by
  obtain ⟨hchanged, hwritten⟩ := placeLoader_steps hr hplace h
  rw [hplace.join_eq_descend] at hchanged hwritten
  cases hflag : record.changed with
  | true =>
    rw [hflag, if_pos (by simp)] at hwritten
    obtain ⟨u, hwrite⟩ := hwritten
    exact writeText_places hr hrooted hplace.lexical_ne (fun _ => Path.isName_of_mem_lexical) hwrite
  | false =>
    rw [hflag, if_neg (by simp)] at hwritten
    subst hwritten
    exact ⟨hr, .same (hchanged.1 hflag).2⟩

theorem confined_placeLoader (hrooted : root.rooted = true) (hplace : relative.IsPlace)
    (text : String) : Moves (Tree.Confined root l) (placeLoader preview root relative text) := by
  have hnames : ∀ name ∈ relative.lexical, IsName name := fun _ => Path.isName_of_mem_lexical
  rw [placeLoader, hplace.join_eq_descend]
  have hend : ∀ changed : Bool, Moves (Tree.Confined root l)
      (if (changed && !preview) = true then
        writeText (root.descend relative.lexical) text >>=
          fun _ => pure ⟨relative, changed, .loader⟩
      else pure ⟨relative, changed, .loader⟩ : Files FileRecord) :=
    fun changed => Moves.ite
      (fun _ => Moves.bind (confined_writeText hrooted hplace.lexical_ne hnames text) fun _ =>
        Moves.pure _) fun _ => Moves.pure _
  refine Moves.bind Moves.get fun t => Moves.ite (fun _ => Moves.bind (fun t => ?_) fun read =>
    hend (read != some text)) fun _ => hend true
  rw [← moves_readText? (root.descend relative.lexical) t]
  exact Std.Refl.refl t

/-- A file that is taken away is gone, also where it is not found: what a place below the root holds
is reached by the path of the place. -/
theorem removeFile_sets (hr : t.PlainAt root l) (hplace : relative.IsPlace)
    (hadm : t.get? (l ++ relative.lexical) ≠ none → (root.descend relative.lexical).Admissible)
    {removed : Bool} (h : removeFile (root.join relative) t = (.ok removed, t')) :
    t'.PlainAt root l ∧ t.Sets (l ++ relative.lexical) none t' := by
  have hnames : ∀ name ∈ relative.lexical, IsName name := fun _ => Path.isName_of_mem_lexical
  rw [hplace.join_eq_descend] at h
  refine ⟨((confined_removeFile hplace.lexical_ne hnames).of_eq_ok h hr).1, ?_⟩
  rcases removeFile_steps h with ⟨-, u, hunlink⟩ | ⟨hhas, rfl⟩
  · rcases Edit.unlink_cases (root.descend relative.lexical) t with
      ⟨m, e, hland, -, hrun, hsets⟩ | ⟨r, hrun⟩
    · obtain rfl : m = l ++ relative.lexical :=
        (hr.land_location hplace.lexical_ne hnames hland).1
      rw [hrun] at hunlink
      cases hunlink
      exact hsets
    · rw [hrun] at hunlink
      cases hunlink
  · refine .same ?_
    by_contra hne
    obtain ⟨e, he⟩ := Option.ne_none_iff_exists'.1 hne
    have hthere : t.has (root.descend relative.lexical) = true :=
      Tree.has_iff.2 ⟨_, _, (hr.find_descend_iff hnames).2 ⟨hadm hne, rfl, he⟩⟩
    rw [hhas] at hthere
    cases hthere

/-! ### The loader of a build -/

/-- What there is after the loader has been generated. -/
theorem generateLoader_get? (hr : t.PlainAt root l) (hrooted : root.rooted = true)
    (hplaced : layout.IsPlaced)
    (hadm : ∀ names, t.get? (l ++ names) ≠ none → (root.descend names).Admissible)
    {m : Manifest} (h : generateLoader false layout brand strategy root t = (.ok m, t')) :
    t'.PlainAt root l ∧ ∀ n, t'.get? n =
      if n = l ++ (layout.generated strategy).lexical then
        some (.file (layout.loaderText brand strategy).toUTF8)
      else if n <+: l ++ (layout.generated strategy).lexical then some .directory
      else if strategy = .external ∧ n = l ++ layout.loaderFile.lexical then none
      else t.get? n := by
  cases strategy with
  | selfContained =>
    unfold generateLoader at h
    rw [if_neg (by simp)] at h
    obtain ⟨record, t₁, hplace, hend⟩ := bind_eq_ok.1 h
    obtain ⟨-, rfl⟩ := pure_eq_ok.1 hend
    obtain ⟨hr', hplaces⟩ := placeLoader_places hr hrooted (hplaced.generated _) hplace
    refine ⟨hr', fun n => ?_⟩
    rw [hplaces, if_neg (c := _ ∧ _) (by simp)]
    rfl
  | external =>
    unfold generateLoader at h
    rw [if_pos (by simp)] at h
    obtain ⟨removed, t₁, hremove, h⟩ := bind_eq_ok.1 h
    obtain ⟨hr₁, hsets⟩ := removeFile_sets hr hplaced.loaderFile (hadm _) hremove
    obtain ⟨record, t₂, hplace, hend⟩ := bind_eq_ok.1 h
    obtain ⟨-, rfl⟩ := pure_eq_ok.1 hend
    obtain ⟨hr', hplaces⟩ := placeLoader_places hr₁ hrooted (hplaced.generated _) hplace
    refine ⟨hr', fun n => ?_⟩
    rw [hplaces, hsets]
    simp only [true_and]
    rfl

/-- The record of a loader that is generated. A loader that is removed first is never found to be
the one that is generated. -/
theorem generateLoader_record (hr : t.PlainAt root l) (hplaced : layout.IsPlaced)
    (hadm : ∀ names, t.get? (l ++ names) ≠ none → (root.descend names).Admissible)
    {m : Manifest} (h : generateLoader preview layout brand strategy root t = (.ok m, t')) :
    ∃ changed : Bool, m = [⟨layout.generated strategy, changed, .loader⟩] ∧
      (changed = false ↔
        (preview = false → strategy = .external →
          layout.loaderFile.lexical ≠ (layout.generated strategy).lexical) ∧
        t.get? (l ++ (layout.generated strategy).lexical) =
          some (.file (layout.loaderText brand strategy).toUTF8)) := by
  -- the system takes the path of what is there
  have hplace : ∀ {t₁ t₂ : Tree} {record : FileRecord}, t₁.PlainAt root l →
      (∀ n, t₁.get? n = t.get? n ∨ t₁.get? n = none) →
      placeLoader preview root (layout.generated strategy) (layout.loaderText brand strategy) t₁ =
        (.ok record, t₂) →
      record = ⟨layout.generated strategy, record.changed, .loader⟩ ∧
        (record.changed = false ↔ t₁.get? (l ++ (layout.generated strategy).lexical) =
          some (.file (layout.loaderText brand strategy).toUTF8)) := by
    intro t₁ t₂ record hr₁ hless hrun
    obtain ⟨hpath, hrole⟩ := placeLoader_record hrun
    obtain ⟨hchanged, -⟩ := placeLoader_steps hr₁ (hplaced.generated _) hrun
    refine ⟨?_, hchanged.trans (and_iff_right_of_imp fun hget => ?_)⟩
    · rw [← hpath, ← hrole]
    · rw [(hplaced.generated strategy).join_eq_descend]
      refine hadm _ fun hnone => ?_
      rcases hless (l ++ (layout.generated strategy).lexical) with hsame | hnone'
      · rw [hget, hnone] at hsame
        cases hsame
      · rw [hget] at hnone'
        cases hnone'
  unfold generateLoader at h
  by_cases hremoves : strategy = .external ∧ (!preview) = true
  · rw [if_pos hremoves] at h
    obtain ⟨removed, t₁, hremove, h⟩ := bind_eq_ok.1 h
    obtain ⟨hr₁, hsets⟩ := removeFile_sets hr hplaced.loaderFile (hadm _) hremove
    obtain ⟨record, t₂, hrun, hend⟩ := bind_eq_ok.1 h
    obtain ⟨rfl, -⟩ := pure_eq_ok.1 hend
    have hless : ∀ n, t₁.get? n = t.get? n ∨ t₁.get? n = none := by
      intro n
      rw [hsets]
      split
      · exact Or.inr rfl
      · exact Or.inl rfl
    obtain ⟨hrecord, hchanged⟩ := hplace hr₁ hless hrun
    refine ⟨record.changed, by rw [← hrecord], hchanged.trans ?_⟩
    rw [hsets]
    by_cases hsame : layout.loaderFile.lexical = (layout.generated strategy).lexical
    · rw [if_pos (by rw [hsame])]
      exact ⟨nofun, fun hboth => absurd hsame (hboth.1 (by simpa using hremoves.2) hremoves.1)⟩
    · rw [if_neg fun heq => hsame (List.append_cancel_left heq).symm]
      exact ⟨fun hget => ⟨fun _ _ => hsame, hget⟩, fun hboth => hboth.2⟩
  · rw [if_neg hremoves] at h
    obtain ⟨record, t₂, hrun, hend⟩ := bind_eq_ok.1 h
    obtain ⟨rfl, -⟩ := pure_eq_ok.1 hend
    obtain ⟨hrecord, hchanged⟩ := hplace hr (fun _ => Or.inl rfl) hrun
    refine ⟨record.changed, by rw [← hrecord], hchanged.trans (and_iff_right ?_).symm⟩
    exact fun hreal hexternal => absurd ⟨hexternal, by simpa using hreal⟩ hremoves

/-- The loader that is generated has one record, whatever is in its place. -/
theorem generateLoader_eq_ok {m : Manifest}
    (h : generateLoader preview layout brand strategy root t = (.ok m, t')) :
    ∃ changed : Bool, m = [⟨layout.generated strategy, changed, .loader⟩] := by
  have hplace : ∀ {s : Tree}, (placeLoader preview root (layout.generated strategy)
      (layout.loaderText brand strategy) >>= fun record => pure [record] : Files Manifest) s =
        (.ok m, t') → ∃ changed : Bool, m = [⟨layout.generated strategy, changed, .loader⟩] := by
    intro s hrun
    obtain ⟨record, s', hplace, hend⟩ := bind_eq_ok.1 hrun
    obtain ⟨rfl, -⟩ := pure_eq_ok.1 hend
    obtain ⟨hpath, hrole⟩ := placeLoader_record hplace
    exact ⟨record.changed, by rw [← hpath, ← hrole]⟩
  unfold generateLoader at h
  by_cases hremoves : strategy = .external ∧ (!preview) = true
  · rw [if_pos hremoves] at h
    obtain ⟨removed, s, -, hrest⟩ := bind_eq_ok.1 h
    exact hplace hrest
  · rw [if_neg hremoves] at h
    exact hplace h

/-- Whatever comes of generating the loader, nothing outside the tree becomes different. -/
theorem confined_generateLoader (hrooted : root.rooted = true) (hplaced : layout.IsPlaced) :
    Moves (Tree.Confined root l) (generateLoader preview layout brand strategy root) := by
  have hplace : Moves (Tree.Confined root l) (do
      return [← placeLoader preview root (layout.generated strategy)
        (layout.loaderText brand strategy)]) :=
    Moves.bind (confined_placeLoader hrooted (hplaced.generated strategy) _) fun _ => Moves.pure _
  refine Moves.ite (fun _ => Moves.bind ?_ fun _ => hplace) fun _ => hplace
  rw [hplaced.loaderFile.join_eq_descend]
  exact confined_removeFile hplaced.loaderFile.lexical_ne fun _ => Path.isName_of_mem_lexical

/-! ### The loader of a tree branded in place -/

/-- The loader that is found is branded, and has a record where that changes it. -/
theorem brandLoaderFile_eq_ok (hr : t.PlainAt root l) (hplace : layout.loaderFile.IsPlace)
    {m : Manifest}
    (h : brandLoaderFile preview layout brand root t = (.ok m, t')) :
    if t.isFile (root.join layout.loaderFile) then
      ∃ bytes, t.get? (l ++ layout.loaderFile.lexical) = some (.file bytes) ∧
        m = (if brandedByRole brand .loader bytes = bytes then []
          else [⟨layout.loaderFile, true, .loader⟩]) ∧
        t.Sets (l ++ layout.loaderFile.lexical)
          (some (.file (if preview then bytes else brandedByRole brand .loader bytes))) t'
    else m = [] ∧ t = t' := by
  have hnames : ∀ name ∈ layout.loaderFile.lexical, IsName name :=
    fun _ => Path.isName_of_mem_lexical
  have hrest := get_bind_eq_ok.1 h
  rw [hplace.join_eq_descend] at hrest ⊢
  by_cases hfile : t.isFile (root.descend layout.loaderFile.lexical) = true
  · rw [if_pos hfile] at hrest ⊢
    obtain ⟨n, bytes, hfind⟩ := Tree.isFile_iff.1 hfile
    obtain ⟨-, -, hbytes⟩ := (hr.find_descend_iff hnames).1 hfind
    obtain ⟨changed, t₁, hbrand, hrest⟩ := bind_eq_ok.1 hrest
    obtain ⟨-, hchanged, -, hsets⟩ := brandFile_eq_ok hr hnames hbytes hbrand
    refine ⟨bytes, hbytes, ?_⟩
    cases changed with
    | true =>
      obtain ⟨rfl, rfl⟩ := pure_eq_ok.1 hrest
      exact ⟨by rw [if_neg (hchanged.1 rfl)], hsets⟩
    | false =>
      obtain ⟨rfl, rfl⟩ := pure_eq_ok.1 hrest
      exact ⟨by rw [if_pos (by simpa using hchanged)], hsets⟩
  · rw [if_neg hfile] at hrest ⊢
    obtain ⟨rfl, rfl⟩ := pure_eq_ok.1 hrest
    exact ⟨rfl, rfl⟩

end Files

end Branding
