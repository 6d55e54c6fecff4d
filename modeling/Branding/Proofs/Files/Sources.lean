import Mathlib
import Branding.Files.Sources
import Branding.Proofs.Files.Overwrite
import Branding.Proofs.Files.Walk
import Branding.Proofs.Path.Place

/-!
# What branding makes of a tree

Branding comes to every file of a tree once, and what it makes of one depends on the names that lead
there and on its bytes. Whether the file is written or found to be the same already makes no
difference to what is there afterwards. The records are the same in a preview, which leaves every
file as it is, so both kinds of run are described at once.

## Main definitions

* `brandedBytes` — what branding makes of a file
* `brandedRecords`, `Tree.brandedManifest` — the records of that

## Main results

* `Files.brandSource_eq_ok` — one file
* `Files.brandSources_eq_ok` — all files of a tree
* `Files.confined_brandSources` — nothing else becomes different, whatever comes of it
* `Tree.nodup_brandedManifest` — no path has two records
* `Tree.brandedManifest_congr` — the records depend on the files of the tree only
-/

namespace Branding

theorem toUTF8_of_fromUTF8? {bytes : ByteArray} {text : String}
    (h : String.fromUTF8? bytes = some text) : text.toUTF8 = bytes := by
  unfold String.fromUTF8? at h
  split at h
  · cases h
    rfl
  · cases h

theorem fromUTF8?_eq_some_iff {bytes : ByteArray} {text : String} :
    String.fromUTF8? bytes = some text ↔ bytes = text.toUTF8 := by
  refine ⟨fun h => (toUTF8_of_fromUTF8? h).symm, ?_⟩
  rintro rfl
  exact dif_pos text.isValidUTF8

/-- The bytes of a file after branding, by its role. What is no text stays as it is. -/
def brandedByRole (brand : Brand) (role : FileRole) (bytes : ByteArray) : ByteArray :=
  match String.fromUTF8? bytes with
  | some text => (brandedText brand role text).toUTF8
  | none => bytes

/-- The bytes of a file after branding, by the names that lead to it. -/
def brandedBytes (layout : Layout) (brand : Brand) (names : List String) (bytes : ByteArray) :
    ByteArray :=
  if (Path.ofNames false names).isSource then
    match layout.role? (.ofNames false names) with
    | some role => brandedByRole brand role bytes
    | none => bytes
  else bytes

/-- An entry after branding, by the names that lead to it. -/
def brandedEntry (layout : Layout) (brand : Brand) (names : List String) : Entry → Entry
  | .file bytes => .file (brandedBytes layout brand names bytes)
  | e => e

/-- The records of branding one file: one, where it changes the file. -/
def brandedRecords (layout : Layout) (brand : Brand) (names : List String) (bytes : ByteArray) :
    Manifest :=
  if (Path.ofNames false names).isSource then
    match layout.role? (.ofNames false names) with
    | some role =>
      if brandedByRole brand role bytes = bytes then [] else [⟨.ofNames false names, true, role⟩]
    | none => []
  else []

/-- The records of branding an entry. -/
def Entry.brandedRecords (layout : Layout) (brand : Brand) (names : List String) :
    Option Entry → Manifest
  | some (.file bytes) => Branding.brandedRecords layout brand names bytes
  | _ => []

/-- The records of branding all sources below a location. -/
def Tree.brandedManifest (layout : Layout) (brand : Brand) (t : Tree) (l : Location) : Manifest :=
  (t.files l).flatMap fun names => Entry.brandedRecords layout brand names (t.get? (l ++ names))

/-- Branding comes to the file that these names lead to, in this role. -/
structure Layout.Brands (layout : Layout) (names : List String) (role : FileRole) : Prop where
  isSource : (Path.ofNames false names).isSource = true
  role_eq : layout.role? (.ofNames false names) = some role

/-- Whether a file is a source shows in its names. -/
theorem isSource_descend {names : List String} (hne : names ≠ []) (hnames : ∀ s ∈ names, IsName s)
    (root : Path) : (root.descend names).isSource = (Path.ofNames false names).isSource := by
  obtain ⟨front, name, rfl⟩ := (List.eq_nil_or_concat names).resolve_left hne
  rw [List.concat_eq_append] at hnames ⊢
  have hname : IsName name := hnames name (by simp)
  obtain ⟨before, hbefore⟩ := Path.exists_segments_child (root.descend front) name
  have hsegments : (Path.ofNames false (front ++ [name])).segments = front ++ [name] := by
    rw [Path.ofNames, if_neg (by simp)]
  rw [Path.isSource, Path.isSource, Path.extension?, Path.extension?, Path.descend_concat,
    Path.fileName?_of_segments hbefore hname, Path.fileName?_of_segments hsegments hname]

namespace Layout

/-- The role of a source by the names that lead to it. -/
theorem IsPlaced.role?_ofNames {layout : Layout} (h : layout.IsPlaced) {names : List String}
    (hnames : ∀ s ∈ names, IsName s) :
    layout.role? (.ofNames false names) =
      if names = layout.loaderFile.lexical then none
      else if names = layout.entryHelper.lexical then some .entryHelper
      else some .normal := by
  simp only [role?, h.loaderFile.agrees_iff hnames, h.entryHelper.agrees_iff hnames]

/-- Branding the sources leaves the loader alone. -/
theorem brandedEntry_loaderFile {layout : Layout} {brand : Brand} (h : layout.IsPlaced) :
    brandedEntry layout brand layout.loaderFile.lexical = id := by
  funext e
  cases e with
  | directory | link target => rfl
  | file bytes =>
    rw [brandedEntry, brandedBytes, h.role?_ofNames (fun _ => Path.isName_of_mem_lexical),
      if_pos rfl, ite_self, id]

end Layout

/-- An entry is a file after branding where it was one. -/
theorem map_brandedEntry_eq_file_iff {layout : Layout} {brand : Brand} {names : List String}
    {e : Option Entry} {bytes : ByteArray} :
    e.map (brandedEntry layout brand names) = some (.file bytes) ↔
      ∃ bytes', e = some (.file bytes') ∧ brandedBytes layout brand names bytes' = bytes := by
  match e with
  | none | some .directory | some (.link target) => simp [brandedEntry]
  | some (.file bytes') => simp [brandedEntry]

/-- Only a text is changed by branding. -/
theorem brandedByRole_ne_iff {brand : Brand} {role : FileRole} {bytes : ByteArray} :
    brandedByRole brand role bytes ≠ bytes ↔
      ∃ text, bytes = text.toUTF8 ∧ brandedText brand role text ≠ text := by
  unfold brandedByRole
  constructor
  · intro hne
    cases htext : String.fromUTF8? bytes with
    | none => simp [htext] at hne
    | some text =>
      have hbytes := toUTF8_of_fromUTF8? htext
      simp only [htext] at hne
      exact ⟨text, hbytes.symm, fun heq => hne (by rw [heq, hbytes])⟩
  · rintro ⟨text, rfl, hne⟩ heq
    rw [fromUTF8?_eq_some_iff.2 rfl] at heq
    exact hne (String.toByteArray_inj.1 heq)

theorem mem_brandedRecords {layout : Layout} {brand : Brand} {names : List String}
    {bytes : ByteArray} {record : FileRecord} :
    record ∈ brandedRecords layout brand names bytes ↔
      ∃ role, (Path.ofNames false names).isSource = true ∧
        layout.role? (.ofNames false names) = some role ∧ brandedByRole brand role bytes ≠ bytes ∧
        record = ⟨.ofNames false names, true, role⟩ := by
  unfold brandedRecords
  by_cases hsource : (Path.ofNames false names).isSource = true
  · rw [if_pos hsource]
    cases hrole : layout.role? (Path.ofNames false names) with
    | none => simp
    | some role =>
      by_cases hsame : brandedByRole brand role bytes = bytes
      · simp [hsame]
      · simp [hsame, hsource]
  · rw [if_neg hsource]
    simp [hsource]

/-- A file has one record at most, with its path. -/
theorem Entry.brandedRecords_eq_nil_or (layout : Layout) (brand : Brand) (names : List String)
    (e : Option Entry) : Entry.brandedRecords layout brand names e = [] ∨
      ∃ role, Entry.brandedRecords layout brand names e = [⟨.ofNames false names, true, role⟩] := by
  cases e with
  | none => exact Or.inl rfl
  | some e =>
    cases e with
    | directory | link target => exact Or.inl rfl
    | file bytes =>
      show Branding.brandedRecords layout brand names bytes = [] ∨
        ∃ role, Branding.brandedRecords layout brand names bytes =
          [⟨.ofNames false names, true, role⟩]
      unfold Branding.brandedRecords
      split
      · split
        next role _ =>
          split
          · exact Or.inl rfl
          · exact Or.inr ⟨role, rfl⟩
        · exact Or.inl rfl
      · exact Or.inl rfl

namespace Tree

variable {layout : Layout} {brand : Brand} {t t' : Tree} {l l' : Location}

theorem mem_brandedManifest {record : FileRecord} :
    record ∈ t.brandedManifest layout brand l ↔
      ∃ names bytes, names ≠ [] ∧ t.get? (l ++ names) = some (.file bytes) ∧
        record ∈ brandedRecords layout brand names bytes := by
  rw [brandedManifest, List.mem_flatMap]
  constructor
  · rintro ⟨names, hmem, hrecord⟩
    obtain ⟨hne, bytes, hbytes⟩ := mem_files.1 hmem
    rw [hbytes] at hrecord
    exact ⟨names, bytes, hne, hbytes, hrecord⟩
  · rintro ⟨names, bytes, hne, hbytes, hrecord⟩
    refine ⟨names, mem_files.2 ⟨hne, bytes, hbytes⟩, ?_⟩
    rw [hbytes]
    exact hrecord

/-- Only what was changed has a record, and the loader has none. -/
theorem of_mem_brandedManifest {record : FileRecord}
    (h : record ∈ t.brandedManifest layout brand l) :
    record.changed = true ∧ record.role ≠ .loader := by
  obtain ⟨names, bytes, -, -, hrecord⟩ := mem_brandedManifest.1 h
  obtain ⟨role, -, hrole, -, rfl⟩ := mem_brandedRecords.1 hrecord
  refine ⟨rfl, ?_⟩
  rintro rfl
  unfold Layout.role? at hrole
  split at hrole
  · cases hrole
  · split at hrole
    · cases hrole
    · cases hrole

/-- Branding comes to every file once, so no path has two records. -/
theorem nodup_brandedManifest (layout : Layout) (brand : Brand) (t : Tree) (l : Location) :
    ((t.brandedManifest layout brand l).map (·.path)).Nodup := by
  have hone : ∀ names ∈ t.files l,
      List.Sublist ((Entry.brandedRecords layout brand names (t.get? (l ++ names))).map (·.path))
        [Path.ofNames false names] := by
    intro names _
    rcases Entry.brandedRecords_eq_nil_or layout brand names (t.get? (l ++ names)) with
      hnil | ⟨role, hone⟩
    · rw [hnil]
      exact List.nil_sublist _
    · rw [hone]
      exact List.Sublist.refl _
  have hpaths : ((t.files l).map (Path.ofNames false)).Nodup := by
    refine (nodup_files t l).map_on fun names hmem names' hmem' heq => ?_
    rw [Path.ofNames_of_ne_nil (mem_files.1 hmem).1, Path.ofNames_of_ne_nil (mem_files.1 hmem').1]
      at heq
    exact (Path.mk.inj heq).2
  refine hpaths.sublist ?_
  rw [brandedManifest, List.map_flatMap, List.map_eq_flatMap]
  exact List.Sublist.flatMap_right _ hone

/-- The records depend on the files of a tree, and on nothing else in it. -/
theorem brandedManifest_congr
    (h : ∀ names bytes, t.get? (l ++ names) = some (.file bytes) ↔
      t'.get? (l' ++ names) = some (.file bytes)) :
    t.brandedManifest layout brand l = t'.brandedManifest layout brand l' := by
  rw [brandedManifest, brandedManifest, files_congr fun names => exists_congr fun bytes =>
    h names bytes]
  rw [List.flatMap, List.flatMap]
  congr 1
  refine List.map_congr_left fun names hmem => ?_
  obtain ⟨-, bytes, hbytes⟩ := mem_files.1 hmem
  rw [hbytes, (h names bytes).2 hbytes]

end Tree

namespace Files

variable {t t' : Tree} {layout : Layout} {brand : Brand} {root : Path} {l : Location}
  {names : List String} {preview : Bool}

/-! ### One file -/

/-- A file that is found can be branded, and nothing else becomes different. -/
theorem brandFile_of_found {file : Path} {bytes : ByteArray}
    (h : t.find file = .ok (l, .file bytes))
    (role : FileRole) : ∃ changed t', brandFile preview brand role file t = (.ok changed, t') ∧
      (changed = true ↔ brandedByRole brand role bytes ≠ bytes) ∧
      t.Sets l (some (.file (if preview then bytes else brandedByRole brand role bytes))) t' := by
  have hget := Tree.get?_of_find h
  rw [brandFile, bind_apply, readText?_of_found h, brandedByRole]
  cases htext : String.fromUTF8? bytes with
  | none =>
    refine ⟨false, t, rfl, by simp, ?_⟩
    rw [ite_self]
    exact .same hget
  | some text =>
    have hbytes := toUTF8_of_fromUTF8? htext
    simp only
    by_cases hstill : brandedText brand role text = text
    · rw [if_pos hstill, hstill, hbytes, ite_self]
      exact ⟨false, t, rfl, by simp, .same hget⟩
    have hdiffers : (brandedText brand role text).toUTF8 ≠ bytes := by
      intro heq
      rw [← hbytes] at heq
      exact hstill (String.toByteArray_inj.1 heq)
    rw [if_neg hstill]
    cases preview with
    | true => exact ⟨true, t, rfl, ⟨fun _ => hdiffers, fun _ => rfl⟩, .same hget⟩
    | false =>
      obtain ⟨t', hwrite, hsets⟩ := writeText_of_found h (brandedText brand role text)
      refine ⟨true, t', ?_, ⟨fun _ => hdiffers, fun _ => rfl⟩, hsets⟩
      show (writeText file (brandedText brand role text) >>= fun _ => Pure.pure true) t = _
      rw [bind_apply, hwrite]
      rfl

/-- A file that is there after branding, or still is in a preview. -/
theorem brandFile_eq_ok (hr : t.PlainAt root l) (hnames : ∀ name ∈ names, IsName name)
    {role : FileRole} {bytes : ByteArray} (hbytes : t.get? (l ++ names) = some (.file bytes))
    {changed : Bool} (h : brandFile preview brand role (root.descend names) t = (.ok changed, t')) :
    (root.descend names).Admissible ∧ (changed = true ↔ brandedByRole brand role bytes ≠ bytes) ∧
      t'.PlainAt root l ∧ t.Sets (l ++ names)
        (some (.file (if preview then bytes else brandedByRole brand role bytes))) t' := by
  obtain ⟨text, t₁, hread, -⟩ := bind_eq_ok.1 h
  obtain ⟨-, m, found, hfound, -⟩ := readText?_eq_ok hread
  obtain ⟨hadm, rfl, hget⟩ := (hr.find_descend_iff hnames).1 hfound
  obtain rfl : found = bytes := by
    rw [hget] at hbytes
    exact Entry.file.inj (Option.some.inj hbytes)
  obtain ⟨changed', t₂, hrun, hchanged, hsets⟩ := brandFile_of_found hfound role
  rw [hrun] at h
  cases h
  refine ⟨hadm, hchanged, hr.of_sets hsets hnames (by simp) fun hdir => ?_, hsets⟩
  rw [hget] at hdir
  cases hdir

/-- What branding makes of one file, and its records, where the system takes the path of a file that
is to be branded. -/
theorem brandSource_of_admissible (preview : Bool) (brand : Brand) (hr : t.PlainAt root l)
    (hne : names ≠ []) {bytes : ByteArray} (hbytes : t.get? (l ++ names) = some (.file bytes))
    (hadm : ∀ role, layout.Brands names role → (root.descend names).Admissible) :
    ∃ t', brandSource preview layout brand root names t =
        (.ok (brandedRecords layout brand names bytes), t') ∧ t'.PlainAt root l ∧
      t.Sets (l ++ names)
        (some (.file (if preview then bytes else brandedBytes layout brand names bytes))) t' := by
  have hnames : ∀ s ∈ names, IsName s := hr.isName hbytes
  unfold brandSource brandedBytes brandedRecords
  rw [isSource_descend hne hnames]
  by_cases hsource : (Path.ofNames false names).isSource = true
  · rw [if_pos hsource, if_pos hsource, if_neg (by simp [hsource])]
    cases hrole : layout.role? (Path.ofNames false names) with
    | none =>
      simp only [ite_self]
      exact ⟨t, rfl, hr, .same hbytes⟩
    | some role =>
      have hfind := (hr.find_descend_iff hnames).2 ⟨hadm role ⟨hsource, hrole⟩, rfl, hbytes⟩
      obtain ⟨changed, t', hbrand, hchanged, hsets⟩ := brandFile_of_found hfind role
      obtain ⟨-, -, hr', -⟩ := brandFile_eq_ok hr hnames hbytes hbrand
      refine ⟨t', ?_, hr', hsets⟩
      simp only [bind_apply, hbrand]
      cases changed with
      | true => simp [hchanged.1 rfl]; rfl
      | false =>
        have hsame : brandedByRole brand role bytes = bytes := by simpa using hchanged
        simp [hsame]; rfl
  · rw [if_neg hsource, if_neg hsource, if_pos (by simpa using hsource)]
    simp only [ite_self]
    exact ⟨t, rfl, hr, .same hbytes⟩

/-- The system has taken the path of a file that was branded. -/
theorem admissible_of_brandSource (hr : t.PlainAt root l) (hne : names ≠ []) {bytes : ByteArray}
    (hbytes : t.get? (l ++ names) = some (.file bytes)) {m : Manifest}
    (h : brandSource preview layout brand root names t = (.ok m, t')) {role : FileRole}
    (hrole : layout.Brands names role) : (root.descend names).Admissible := by
  have hnames : ∀ s ∈ names, IsName s := hr.isName hbytes
  unfold brandSource at h
  rw [isSource_descend hne hnames, if_neg (by simp [hrole.isSource]), hrole.role_eq] at h
  obtain ⟨changed, t₁, hbrand, -⟩ := bind_eq_ok.1 h
  exact (brandFile_eq_ok hr hnames hbytes hbrand).1

/-- What branding makes of one file, and its records. -/
theorem brandSource_eq_ok (hr : t.PlainAt root l) (hne : names ≠ []) {bytes : ByteArray}
    (hbytes : t.get? (l ++ names) = some (.file bytes)) {m : Manifest}
    (h : brandSource preview layout brand root names t = (.ok m, t')) :
    m = brandedRecords layout brand names bytes ∧ t'.PlainAt root l ∧
      t.Sets (l ++ names)
        (some (.file (if preview then bytes else brandedBytes layout brand names bytes))) t' := by
  obtain ⟨t₁, hrun, hr', hsets⟩ := brandSource_of_admissible preview brand hr hne
    hbytes fun role => admissible_of_brandSource hr hne hbytes h
  rw [hrun] at h
  cases h
  exact ⟨rfl, hr', hsets⟩

theorem confined_brandFile (hrooted : root.rooted = true) (hne : names ≠ [])
    (hnames : ∀ name ∈ names, IsName name) (role : FileRole) :
    Moves (Tree.Confined root l) (brandFile preview brand role (root.descend names)) := by
  refine Moves.bind (fun t => ?_) fun text => ?_
  · rw [← moves_readText? (root.descend names) t]
    exact Std.Refl.refl t
  cases text with
  | none => exact Moves.pure false
  | some text =>
    refine Moves.ite (fun _ => Moves.pure _) fun _ => ?_
    exact Moves.ite (fun _ => Moves.bind (confined_writeText hrooted hne hnames _) fun _ =>
      Moves.pure _) fun _ => Moves.pure _

theorem confined_brandSource (hrooted : root.rooted = true) (hne : names ≠ [])
    (hnames : ∀ name ∈ names, IsName name) :
    Moves (Tree.Confined root l) (brandSource preview layout brand root names) := by
  refine Moves.ite (fun _ => Moves.pure _) fun _ => ?_
  cases layout.role? (Path.ofNames false names) with
  | none => exact Moves.pure _
  | some role =>
    refine Moves.bind (confined_brandFile hrooted hne hnames role) fun changed => ?_
    exact Moves.ite (fun _ => Moves.pure _) fun _ => Moves.pure _

/-! ### All files -/

theorem refuse_ne_ok_of_walk {inside : Path} {r : Refusal} {m : Manifest} :
    brandAt.refuse root inside r t ≠ (.ok m, t') :=
  fun h => throw_ne_ok (adapt_eq_ok.1 (adapt_eq_ok.1 h))

/-- A visit that succeeds brands a file, or it does nothing. -/
theorem brandAt_eq_ok {v : Visit} {m : Manifest}
    (h : brandAt preview layout brand root v t = (.ok m, t')) :
    match v.file? with
    | some names => brandSource preview layout brand root names t = (.ok m, t')
    | none => m = [] ∧ t = t' := by
  cases v with
  | file names => exact h
  | leave names | link names =>
    obtain ⟨rfl, rfl⟩ := pure_eq_ok.1 h
    exact ⟨rfl, rfl⟩
  | enter names =>
    have hrest := get_bind_eq_ok.1 h
    cases hclosed : t.closed? (root.descend names) with
    | some r =>
      rw [hclosed] at hrest
      exact absurd hrest refuse_ne_ok_of_walk
    | none =>
      rw [hclosed] at hrest
      obtain ⟨rfl, rfl⟩ := pure_eq_ok.1 hrest
      exact ⟨rfl, rfl⟩

/-- A visit changes at most the file that it is to. -/
theorem moves_brandAt_of {R : Tree → Tree → Prop} [Std.Refl R] {v : Visit}
    (hfile : ∀ names, v = .file names → Moves R (brandSource preview layout brand root names)) :
    Moves R (brandAt preview layout brand root v) := by
  cases v with
  | file names => exact hfile names rfl
  | leave names | link names => exact Moves.pure []
  | enter names =>
    intro s
    rw [brandAt, get_bind_apply]
    cases s.closed? (root.descend names) with
    | none => exact Std.Refl.refl s
    | some r => exact Std.Refl.refl s

/-- A walk that succeeds has branded the files that it visits, and has no other records. -/
theorem mapM_brandAt_eq_ok {visits : List Visit} {ms : List Manifest}
    (h : visits.mapM (brandAt preview layout brand root) t = (.ok ms, t')) :
    ∃ records, (visits.filterMap Visit.file?).mapM (brandSource preview layout brand root) t =
      (.ok records, t') ∧ records.flatten = ms.flatten := by
  induction visits generalizing t ms with
  | nil =>
    obtain ⟨rfl, rfl⟩ := pure_eq_ok.1 h
    exact ⟨[], rfl, rfl⟩
  | cons v visits ih =>
    obtain ⟨m, t₁, ms', hfirst, hrest, rfl⟩ := mapM_cons_eq_ok.1 h
    obtain ⟨records, hrecords, hflatten⟩ := ih hrest
    have hv := brandAt_eq_ok hfirst
    cases hfile : v.file? with
    | none =>
      rw [hfile] at hv
      obtain ⟨rfl, rfl⟩ := hv
      rw [List.filterMap_cons_none hfile]
      exact ⟨records, hrecords, hflatten⟩
    | some names =>
      rw [hfile] at hv
      rw [List.filterMap_cons_some hfile]
      exact ⟨m :: records, mapM_cons_eq_ok.2 ⟨m, t₁, records, hv, hrecords, rfl⟩,
        by rw [List.flatten_cons, List.flatten_cons, hflatten]⟩

/-- Files can be branded one after another where the system takes their paths, and branding one of
them makes no difference to the others. -/
theorem mapM_brandSource_of_admissible (preview : Bool) (brand : Brand) (hr : t.PlainAt root l)
    {list : List (List String)} (hnodup : list.Nodup)
    (hfiles : ∀ names ∈ list, names ≠ [] ∧ ∃ bytes, t.get? (l ++ names) = some (.file bytes))
    (hadm : ∀ names ∈ list, ∀ role, layout.Brands names role → (root.descend names).Admissible) :
    ∃ t', list.mapM (brandSource preview layout brand root) t =
        (.ok (list.map fun names =>
          Entry.brandedRecords layout brand names (t.get? (l ++ names))), t') ∧
      t'.PlainAt root l ∧
      (∀ names ∈ list, t'.get? (l ++ names) =
        (t.get? (l ++ names)).map (if preview then id else brandedEntry layout brand names)) ∧
      ∀ m, (∀ names ∈ list, l ++ names ≠ m) → t'.get? m = t.get? m := by
  induction list generalizing t with
  | nil => exact ⟨t, rfl, hr, by simp, fun _ _ => rfl⟩
  | cons names list ih =>
    rw [List.nodup_cons] at hnodup
    rw [List.forall_mem_cons] at hfiles hadm
    obtain ⟨⟨hne, bytes, hbytes⟩, hfiles⟩ := hfiles
    obtain ⟨t₁, hfirst, hr₁, hsets⟩ :=
      brandSource_of_admissible preview brand hr hne hbytes hadm.1
    -- the files that are still to come have not been touched
    have hlater : ∀ names' ∈ list, t₁.get? (l ++ names') = t.get? (l ++ names') := by
      intro names' hmem
      refine hsets.elsewhere fun heq => ?_
      obtain rfl := List.append_cancel_left heq
      exact hnodup.1 hmem
    have hfiles₁ : ∀ names' ∈ list,
        names' ≠ [] ∧ ∃ bytes, t₁.get? (l ++ names') = some (.file bytes) := by
      intro names' hmem
      rw [hlater names' hmem]
      exact hfiles names' hmem
    obtain ⟨t', hrest, hr', hthere, helse⟩ := ih hr₁ hnodup.2 hfiles₁ hadm.2
    refine ⟨t', mapM_cons_eq_ok.2 ⟨_, t₁, _, hfirst, hrest, ?_⟩, hr', ?_, fun m hm => ?_⟩
    · rw [List.map_cons, hbytes]
      congr 1
      exact List.map_congr_left fun names' hmem => by rw [hlater names' hmem]
    · rw [List.forall_mem_cons]
      constructor
      · rw [helse, hsets.here, hbytes]
        · cases preview <;> rfl
        · rintro names' hmem heq
          obtain rfl := List.append_cancel_left heq
          exact hnodup.1 hmem
      · intro names' hmem
        rw [hthere names' hmem, hlater names' hmem]
    · rw [List.forall_mem_cons] at hm
      rw [helse m hm.2, hsets.elsewhere hm.1.symm]

/-- The system has taken the paths of all files that were branded. -/
theorem admissible_of_mapM_brandSource (hr : t.PlainAt root l) {list : List (List String)}
    (hnodup : list.Nodup)
    (hfiles : ∀ names ∈ list, names ≠ [] ∧ ∃ bytes, t.get? (l ++ names) = some (.file bytes))
    {ms : List Manifest} (h : list.mapM (brandSource preview layout brand root) t = (.ok ms, t')) :
    ∀ names ∈ list, ∀ role, layout.Brands names role → (root.descend names).Admissible := by
  induction list generalizing t ms with
  | nil => simp
  | cons names list ih =>
    rw [List.nodup_cons] at hnodup
    rw [List.forall_mem_cons] at hfiles ⊢
    obtain ⟨⟨hne, bytes, hbytes⟩, hfiles⟩ := hfiles
    obtain ⟨m, t₁, ms', hfirst, hrest, -⟩ := mapM_cons_eq_ok.1 h
    obtain ⟨-, hr₁, hsets⟩ := brandSource_eq_ok hr hne hbytes hfirst
    refine ⟨fun role => admissible_of_brandSource hr hne hbytes hfirst,
      ih hr₁ hnodup.2 (fun names' hmem => ?_) hrest⟩
    rw [hsets.elsewhere fun heq => hnodup.1 (List.append_cancel_left heq ▸ hmem)]
    exact hfiles names' hmem

/-- What a walk that succeeds has come to: files whose paths the system takes. -/
theorem of_brandSources (hr : t.PlainAt root l) {m : Manifest}
    (h : brandSources preview layout brand root t = (.ok m, t')) :
    (∀ names ∈ t.files l, ∀ role, layout.Brands names role → (root.descend names).Admissible) ∧
      ∃ records, (t.files l).mapM (brandSource preview layout brand root) t = (.ok records, t') ∧
        records.flatten = m := by
  have hrest := get_bind_eq_ok.1 h
  cases hwalk : t.walk root with
  | error r =>
    rw [hwalk] at hrest
    exact absurd hrest refuse_ne_ok_of_walk
  | ok visits =>
    rw [hwalk] at hrest
    obtain ⟨ms, t₁, hvisits, hend⟩ := bind_eq_ok.1 hrest
    obtain ⟨rfl, rfl⟩ := pure_eq_ok.1 hend
    obtain ⟨records, hmap, hflatten⟩ := mapM_brandAt_eq_ok hvisits
    rw [Tree.filterMap_file?_of_walk hr.found hwalk] at hmap
    exact ⟨admissible_of_mapM_brandSource hr (t.nodup_files l) (fun names => Tree.mem_files.1) hmap,
      records, hmap, hflatten⟩

/-- After the sources of a tree have been branded, every entry is what branding makes of it, and
what it changes has a record. A preview has the same records and leaves every entry as it is. -/
theorem brandSources_eq_ok (hr : t.PlainAt root l) {m : Manifest}
    (h : brandSources preview layout brand root t = (.ok m, t')) :
    m = t.brandedManifest layout brand l ∧ t'.PlainAt root l ∧
      (∀ names, t'.get? (l ++ names) =
        (t.get? (l ++ names)).map (if preview then id else brandedEntry layout brand names)) ∧
      ∀ m, ¬l <+: m → t'.get? m = t.get? m := by
  obtain ⟨hadm, records, hmap, rfl⟩ := of_brandSources hr h
  obtain ⟨t₁, hrun, hr', hthere, helse⟩ := mapM_brandSource_of_admissible preview brand hr
    (t.nodup_files l) (fun names => Tree.mem_files.1) hadm
  rw [hrun] at hmap
  cases hmap
  refine ⟨rfl, hr', fun names => ?_, fun m hm => helse m fun names _ heq =>
    hm (heq ▸ List.prefix_append l names)⟩
  by_cases hfile : names ∈ t.files l
  · exact hthere names hfile
  rw [helse]
  · cases he : t.get? (l ++ names) with
    | none => rfl
    | some e =>
      cases e with
      | directory | link target => cases preview <;> rfl
      | file bytes =>
        refine absurd (Tree.mem_files.2 ⟨?_, bytes, he⟩) hfile
        rintro rfl
        rw [List.append_nil, hr.get?] at he
        cases he
  · rintro names' hmem' heq
    obtain rfl := List.append_cancel_left heq
    exact hfile hmem'

/-- Whatever comes of branding the sources, nothing outside becomes different. -/
theorem confined_brandSources (hrooted : root.rooted = true) :
    Moves (Tree.Confined root l) (brandSources preview layout brand root) := by
  intro t hr
  rw [brandSources, get_bind_apply]
  cases hwalk : t.walk root with
  | error r => exact ⟨hr, fun _ _ => rfl⟩
  | ok visits =>
    have hmap : Moves (Tree.Confined root l)
        (visits.mapM (brandAt preview layout brand root)) := by
      refine Moves.mapM fun v hmem => moves_brandAt_of fun names hv => ?_
      have hfile : names ∈ visits.filterMap Visit.file? := by
        rw [List.mem_filterMap]
        exact ⟨v, hmem, by rw [hv]; rfl⟩
      rw [Tree.filterMap_file?_of_walk hr.found hwalk] at hfile
      obtain ⟨hne, bytes, hbytes⟩ := Tree.mem_files.1 hfile
      exact confined_brandSource hrooted hne (hr.isName hbytes)
    exact Moves.bind hmap (fun _ => Moves.pure _) t hr

end Files

end Branding
