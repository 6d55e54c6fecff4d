import Branding.Proofs.Files.Sources
import Branding.Proofs.Path.ByteOrder

/-!
# Files are branded in any order

A walk takes the names of each directory in turn, and goes into a directory as soon as it comes to
it. So the records come in the order of the paths, component by component and each by its bytes. But
what is made of a file depends on its names and on its bytes alone, and branding one file leaves
every other as it is. So the walk could have come to the files in any order: the files would be the
same afterwards, and so would the records, but for their order.

## Main definitions

* `Tree.IsSourceAt` — a file below a location that branding comes to

## Main results

* `Tree.pairwise_brandedManifest` — the records of a walk are in the order of their paths
* `Files.mapM_brandSource_perm` — the files and the records do not depend on the order of the walk
* `Files.brandSources_in_order` — both, with what becomes of each file
-/

namespace Branding

namespace Tree

variable {t : Tree} {layout : Layout} {brand : Brand} {root : Path} {l : Location}
  {names : List String} {role : FileRole} {bytes : ByteArray}

/-- A file below a location that branding comes to, with the role that it has there. -/
structure IsSourceAt (t : Tree) (layout : Layout) (l : Location) (names : List String)
    (role : FileRole) (bytes : ByteArray) : Prop where
  get?_eq : t.get? (l ++ names) = some (.file bytes)
  brands : layout.Brands names role

/-- The records of a walk are in the order of their paths. -/
theorem pairwise_brandedManifest (hr : t.PlainAt root l) :
    (t.brandedManifest layout brand l).Pairwise fun r r' =>
      r.path.componentBytes < r'.path.componentBytes := by
  have hnames : ∀ names ∈ t.files l, ∀ name ∈ names, IsName name := by
    intro names hmem
    obtain ⟨-, bytes, hbytes⟩ := mem_files.1 hmem
    exact hr.isName hbytes
  have hpath : ∀ {names : List String} {e : Option Entry} {r : FileRecord},
      r ∈ Entry.brandedRecords layout brand names e → r.path = .ofNames false names := by
    intro names e r hmem
    rcases Entry.brandedRecords_eq_nil_or layout brand names e with hnil | ⟨role, hone⟩
    · rw [hnil] at hmem
      cases hmem
    · rw [hone] at hmem
      rw [List.mem_singleton.1 hmem]
  rw [brandedManifest, List.pairwise_flatMap]
  constructor
  · intro names _
    rcases Entry.brandedRecords_eq_nil_or layout brand names (t.get? (l ++ names)) with
      hnil | ⟨role, hone⟩
    · rw [hnil]
      exact List.Pairwise.nil
    · rw [hone]
      exact List.pairwise_singleton _ _
  · refine (t.pairwise_files l).imp_of_mem ?_
    intro names names' hmem hmem' hlt r hrecord r' hrecord'
    rw [hpath hrecord, hpath hrecord']
    exact Path.componentBytes_ofNames_lt (hnames names hmem) (hnames names' hmem') hlt

namespace IsSourceAt

/-- What branding makes of a file depends on its role and its bytes. -/
theorem brandedBytes_eq (h : t.IsSourceAt layout l names role bytes) (brand : Brand) :
    brandedBytes layout brand names bytes = brandedByRole brand role bytes := by
  rw [brandedBytes, if_pos h.brands.isSource, h.brands.role_eq]

theorem ne_nil (h : t.IsSourceAt layout l names role bytes) (hl : t.get? l = some .directory) :
    names ≠ [] := by
  rintro rfl
  have hget := h.get?_eq
  rw [List.append_nil, hl] at hget
  cases hget

end IsSourceAt

/-- Where no source is, branding leaves what is there. -/
theorem map_branded_eq_self (h : ¬∃ role bytes, t.IsSourceAt layout l names role bytes)
    {preview : Bool} : (t.get? (l ++ names)).map
      (if preview then id else brandedEntry layout brand names) = t.get? (l ++ names) := by
  cases preview with
  | true => exact Option.map_id_apply
  | false =>
  cases he : t.get? (l ++ names) with
  | none => rfl
  | some e =>
    cases e with
    | directory | link target => rfl
    | file bytes =>
      show some (Entry.file (brandedBytes layout brand names bytes)) = _
      unfold brandedBytes
      split
      next hsource =>
        split
        next role hrole => exact absurd ⟨role, bytes, he, hsource, hrole⟩ h
        next => rfl
      next => rfl

/-- What has no source has no records either. -/
theorem brandedRecords_eq_nil (h : ¬∃ role bytes, t.IsSourceAt layout l names role bytes) :
    Entry.brandedRecords layout brand names (t.get? (l ++ names)) = [] := by
  cases he : t.get? (l ++ names) with
  | none => rfl
  | some e =>
    cases e with
    | directory | link target => rfl
    | file bytes =>
      rw [List.eq_nil_iff_forall_not_mem]
      intro r hr
      obtain ⟨role, hsource, hrole, -⟩ := mem_brandedRecords.1 hr
      exact h ⟨role, bytes, he, hsource, hrole⟩

/-- The records of the sources in any order are those of a walk, in some order. -/
theorem flatMap_perm_brandedManifest (hl : t.get? l = some .directory)
    {order : List (List String)} (hnodup : order.Nodup)
    (horder : ∀ names, names ∈ order ↔ ∃ role bytes, t.IsSourceAt layout l names role bytes) :
    (order.flatMap fun names => Entry.brandedRecords layout brand names (t.get? (l ++ names))).Perm
      (t.brandedManifest layout brand l) := by
  have hfiltered : order.Perm ((t.files l).filter (· ∈ order)) := by
    rw [List.perm_ext_iff_of_nodup hnodup ((t.nodup_files l).filter _)]
    intro names
    rw [List.mem_filter, decide_eq_true_iff]
    refine ⟨fun hmem => ⟨?_, hmem⟩, fun hmem => hmem.2⟩
    obtain ⟨role, bytes, hsource⟩ := (horder names).1 hmem
    exact mem_files.2 ⟨hsource.ne_nil hl, bytes, hsource.get?_eq⟩
  -- the other files have no records
  have hothers : (((t.files l).filter fun names => !decide (names ∈ order)).flatMap fun names =>
      Entry.brandedRecords layout brand names (t.get? (l ++ names))) = [] := by
    rw [List.flatMap_eq_nil_iff]
    intro names hmem
    have hnot : names ∉ order := by simpa using (List.mem_filter.1 hmem).2
    exact brandedRecords_eq_nil (mt (horder names).2 hnot)
  have hall := (List.filter_append_perm (· ∈ order) (t.files l)).flatMap_right fun names =>
    Entry.brandedRecords layout brand names (t.get? (l ++ names))
  rw [List.flatMap_append, hothers, List.append_nil] at hall
  exact (hfiltered.flatMap_right _).trans hall

end Tree

namespace Files

variable {t t' : Tree} {layout : Layout} {brand : Brand} {root : Path} {l : Location}
  {preview : Bool} {m : Manifest}

/-- The sources branded one by one, in any order, are what a walk makes of them, and the records are
those of the walk in some order. -/
theorem mapM_brandSource_perm (hr : t.PlainAt root l)
    (h : brandSources preview layout brand root t = (.ok m, t')) {order : List (List String)}
    (hnodup : order.Nodup)
    (horder : ∀ names, names ∈ order ↔ ∃ role bytes, t.IsSourceAt layout l names role bytes) :
    ∃ ms, order.mapM (brandSource preview layout brand root) t = (.ok ms, t') ∧
      ms.flatten.Perm m := by
  obtain ⟨rfl, -, hthere, helse⟩ := brandSources_eq_ok hr h
  have hfiles :
      ∀ names ∈ order, names ≠ [] ∧ ∃ bytes, t.get? (l ++ names) = some (.file bytes) := by
    intro names hmem
    obtain ⟨role, bytes, hsource⟩ := (horder names).1 hmem
    exact ⟨hsource.ne_nil hr.get?, bytes, hsource.get?_eq⟩
  obtain ⟨t₁, hrun, -, hthere₁, helse₁⟩ := mapM_brandSource_of_admissible preview brand hr
    hnodup hfiles fun names hmem =>
      (of_brandSources hr h).1 names (Tree.mem_files.2 (hfiles names hmem))
  obtain rfl : t₁ = t' := by
    refine Tree.ext_get? fun place => ?_
    by_cases hplace : ∃ names ∈ order, l ++ names = place
    · obtain ⟨names, hmem, rfl⟩ := hplace
      rw [hthere₁ names hmem, hthere names]
    rw [helse₁ place fun names hmem heq => hplace ⟨names, hmem, heq⟩]
    by_cases hle : l <+: place
    · obtain ⟨names, rfl⟩ := hle
      have hnot : ¬∃ role bytes, t.IsSourceAt layout l names role bytes :=
        fun hsource => hplace ⟨names, (horder names).2 hsource, rfl⟩
      rw [hthere names, Tree.map_branded_eq_self hnot]
    · rw [helse place hle]
  refine ⟨_, hrun, ?_⟩
  rw [← List.flatMap_def]
  exact Tree.flatMap_perm_brandedManifest hr.get? hnodup horder

/-- When the sources of a tree without links have been branded, the records are in the order of
their paths. There is one for each source that branding changes, each source is what branding makes
of it by its role, and everything else is as it was. It makes no difference in which order the
sources are branded. -/
theorem brandSources_in_order (ht : t.Plain) (hroot : t.isDirectory root = true)
    (h : brandSources preview layout brand root t = (.ok m, t')) :
    (m.Pairwise fun r r' => r.path.componentBytes < r'.path.componentBytes) ∧
    (∀ r, r ∈ m ↔ ∃ names role bytes, t.IsSourceAt layout root.lexical names role bytes ∧
      brandedByRole brand role bytes ≠ bytes ∧ r = ⟨.ofNames false names, true, role⟩) ∧
    (∀ names role bytes, t.IsSourceAt layout root.lexical names role bytes →
      t'.get? (root.lexical ++ names) =
        some (.file (if preview then bytes else brandedByRole brand role bytes))) ∧
    (∀ place, (∀ names role bytes, t.IsSourceAt layout root.lexical names role bytes →
      root.lexical ++ names ≠ place) → t'.get? place = t.get? place) ∧
    ∀ order : List (List String), order.Nodup →
      (∀ names, names ∈ order ↔ ∃ role bytes, t.IsSourceAt layout root.lexical names role bytes) →
      ∃ ms, order.mapM (brandSource preview layout brand root) t = (.ok ms, t') ∧
        ms.flatten.Perm m := by
  have hr := ht.plainAt hroot
  obtain ⟨rfl, -, hthere, helse⟩ := brandSources_eq_ok hr h
  refine ⟨Tree.pairwise_brandedManifest hr, fun r => ?_, fun names role bytes hsource => ?_,
    fun place hplace => ?_, fun order hnodup horder => mapM_brandSource_perm hr h hnodup horder⟩
  · rw [Tree.mem_brandedManifest]
    constructor
    · rintro ⟨names, bytes, -, hbytes, hrecord⟩
      obtain ⟨role, hsource, hrole, hne, rfl⟩ := mem_brandedRecords.1 hrecord
      exact ⟨names, role, bytes, ⟨hbytes, hsource, hrole⟩, hne, rfl⟩
    · rintro ⟨names, role, bytes, hsource, hne, rfl⟩
      exact ⟨names, bytes, hsource.ne_nil hr.get?, hsource.get?_eq, mem_brandedRecords.2
        ⟨role, hsource.brands.isSource, hsource.brands.role_eq, hne, rfl⟩⟩
  · rw [hthere names, hsource.get?_eq]
    cases preview with
    | true => rfl
    | false => exact congrArg (some ∘ Entry.file) (hsource.brandedBytes_eq brand)
  · by_cases hle : root.lexical <+: place
    · obtain ⟨names, rfl⟩ := hle
      have hnot : ¬∃ role bytes, t.IsSourceAt layout root.lexical names role bytes :=
        fun ⟨role, bytes, hsource⟩ => hplace names role bytes hsource rfl
      rw [hthere names, Tree.map_branded_eq_self hnot]
    · exact helse place hle

/-- A tree in which two paths and their texts are in different orders: a slash comes after a
dash. -/
private def dashedTree : Tree := .putAll ∅
  [(["src"], .directory), (["src", "a"], .directory),
    (["src", "a", "B.php"], .file "<?php\nnamespace WPLite;\n".toUTF8),
    (["src", "a-x.php"], .file "<?php\nuse WPLite\\X;\n".toUTF8)]

private theorem plain_dashedTree : dashedTree.Plain := Tree.plain_empty.putAll (by simp) (by decide)

private theorem mem_dashedOrder_iff (names : List String) :
    names ∈ [["a-x.php"], ["a", "B.php"]] ↔ ∃ role bytes,
      dashedTree.IsSourceAt (.ofSettings {}) (Path.ofString "/src").lexical names role bytes := by
  constructor
  · intro hmem
    rcases List.mem_pair.1 hmem with rfl | rfl
    · exact ⟨.normal, "<?php\nuse WPLite\\X;\n".toUTF8, by decide +kernel, by decide +kernel,
        by decide +kernel⟩
    · exact ⟨.normal, "<?php\nnamespace WPLite;\n".toUTF8, by decide +kernel, by decide +kernel,
        by decide +kernel⟩
  · rintro ⟨role, bytes, hsource⟩
    have hlexical : (Path.ofString "/src").lexical = ["src"] := by decide +kernel
    have hfiles : dashedTree.files ["src"] = [["a", "B.php"], ["a-x.php"]] := by decide +kernel
    have hmem : names ∈ dashedTree.files ["src"] :=
      Tree.mem_files.2 ⟨hsource.ne_nil (by decide +kernel), bytes, hlexical ▸ hsource.get?_eq⟩
    rw [hfiles, List.mem_pair] at hmem
    exact List.mem_pair.2 hmem.symm

/-- The walk comes to `a/B.php` first. The files can be branded in the other order as well. -/
theorem brandSources_in_order_dash : ∃ m t',
    brandSources false (.ofSettings {}) ⟨"Acme", by decide⟩ (.ofString "/src") dashedTree =
      (.ok m, t') ∧
    (m.Pairwise fun r r' => r.path.componentBytes < r'.path.componentBytes) ∧
    ∃ ms, [["a-x.php"], ["a", "B.php"]].mapM
        (brandSource false (.ofSettings {}) ⟨"Acme", by decide⟩ (.ofString "/src")) dashedTree =
          (.ok ms, t') ∧
      ms.flatten.Perm m := by
  have hok : (brandSources false (.ofSettings {}) ⟨"Acme", by decide⟩ (.ofString "/src")
      dashedTree).1.isOk = true := by decide +kernel
  obtain ⟨m, t', hrun⟩ := exists_of_isOk hok
  obtain ⟨hpairwise, -, -, -, horder⟩ :=
    brandSources_in_order plain_dashedTree (by decide +kernel) hrun
  exact ⟨m, t', hrun, hpairwise, horder _ (by decide) mem_dashedOrder_iff⟩

end Files

end Branding
