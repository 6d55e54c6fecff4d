import Branding.Proofs.Path.Place
import Branding.Proofs.Tree.Find
import Mathlib.Data.String.Basic

/-!
# Spellings of one path

Two spellings of a path differ in empty segments and in dots, and both lead the same way. The last
segment is the exception: behind the name of a file not even a slash may follow. So a spelling that
is shortened anywhere but there leads to the same file. It can only fail to be the same path in its
length, which the system bounds.

## Main definitions

* `Path.Shortens` — a spelling from which empty segments and dots have been taken out

## Main results

* `Tree.Leads.of_components_eq` — segments that say the same lead to the same directory
* `Path.Shortens.find_file`, `Path.Shortens.find_file_iff` — a shortened spelling finds the same
  file
* `Path.isFile_descend`, `Path.agrees_descend_iff` — a path that says names, and the path of these
  names
-/

namespace Branding

/-- The first path is the second with empty segments and dots taken out, the last one left. -/
structure Path.Shortens (q p : Path) : Prop where
  rooted_eq : q.rooted = p.rooted
  sublist : q.segments.Sublist p.segments
  components_eq :
    q.segments.filterMap Component.ofSegment? = p.segments.filterMap Component.ofSegment?
  last_eq : q.segments.getLast? = p.segments.getLast?

theorem Component.ofSegment?_eq_none_iff {s : String} :
    ofSegment? s = none ↔ s = "" ∨ s = "." := by
  unfold ofSegment?
  split
  next h => exact iff_of_true rfl h
  next h =>
    refine iff_of_false ?_ h
    split <;> simp

namespace Tree

variable {t : Tree} {k k' : Nat} {l d m : Location} {segments : List String}

/-! ### Where they lead -/

/-- Segments that say the same lead to the same directory. -/
theorem Leads.of_components_eq (h : t.Leads k l segments k' d) {segments' : List String}
    (hsame : segments'.filterMap Component.ofSegment? = segments.filterMap Component.ofSegment?) :
    t.Leads k l segments' k' d := by
  have hblanks : ∀ {blanks : List String}, (∀ b ∈ blanks, Component.ofSegment? b = none) →
      ∀ b ∈ blanks, b = "" ∨ b = "." :=
    fun hnone b hb => Component.ofSegment?_eq_none_iff.1 (hnone b hb)
  induction h generalizing segments' with
  | arrived k l =>
    rw [List.filterMap_nil, List.filterMap_eq_nil_iff] at hsame
    exact .blanks (hblanks hsame) t k l
  | blank hs _ ih =>
    rw [List.filterMap_cons_none (Component.ofSegment?_eq_none_iff.2 hs)] at hsame
    exact ih hsame
  | @up k k' l d rest _ ih =>
    rw [List.filterMap_cons_some (b := .up) (by decide), List.filterMap_eq_cons_iff] at hsame
    obtain ⟨blanks, s, rest', rfl, hnone, hs, hrest⟩ := hsame
    obtain rfl : s = ".." := by
      unfold Component.ofSegment? at hs
      split at hs
      · cases hs
      split at hs
      · assumption
      · cases hs
    exact (Leads.blanks (hblanks hnone) t k l).append (.up (ih hrest))
  | @into k k' l d name rest hname hshort hget _ ih =>
    rw [List.filterMap_cons_some (Component.ofSegment?_eq_name_iff.2 hname),
      List.filterMap_eq_cons_iff] at hsame
    obtain ⟨blanks, s, rest', rfl, hnone, hs, hrest⟩ := hsame
    obtain ⟨rfl, -⟩ := Component.eq_of_ofSegment? hs
    exact (Leads.blanks (hblanks hnone) t k l).append (.into hname hshort hget (ih hrest))
  | @through k k' l d name rest target hname hshort hget _ ih =>
    rw [List.filterMap_cons_some (Component.ofSegment?_eq_name_iff.2 hname),
      List.filterMap_eq_cons_iff] at hsame
    obtain ⟨blanks, s, rest', rfl, hnone, hs, hrest⟩ := hsame
    obtain ⟨rfl, -⟩ := Component.eq_of_ofSegment? hs
    refine (Leads.blanks (hblanks hnone) t (k + 1) l).append (.through hname hshort hget (ih ?_))
    rw [List.filterMap_append, List.filterMap_append, hrest]

/-- A file is found by its name, without a slash after it. -/
theorem Lands.exists_of_file {bytes : ByteArray}
    (h : t.Lands .follow k l segments (.occupied m (.file bytes))) :
    ∃ front s, segments = front ++ [s] ∧ IsName s := by
  generalize hx : Landing.occupied m (.file bytes) = x at h
  induction h with
  | arrived => cases hx
  | free => cases hx
  | blank _ _ ih | up _ ih | into _ _ _ _ _ ih =>
    obtain ⟨front, s, rfl, hs⟩ := ih hx
    exact ⟨_ :: front, s, rfl, hs⟩
  | @through k l a rest x target ha _ _ _ _ _ ih =>
    rcases List.eq_nil_or_concat rest with rfl | ⟨before, last, rfl⟩
    · exact ⟨[], a, rfl, ha⟩
    · obtain ⟨front, s, hfront, hs⟩ := ih hx
      rw [List.concat_eq_append, ← List.append_assoc] at hfront
      obtain ⟨-, hlast⟩ := List.append_inj' hfront rfl
      obtain rfl : last = s := List.head_eq_of_cons_eq hlast
      exact ⟨a :: before, last, by simp, hs⟩
  | @file k l a rest bytes ha _ _ _ hends =>
    have hnil : rest = [] := by simpa [LastName.endsBefore] using hends
    exact ⟨[], a, by rw [hnil]; rfl, ha⟩
  | held _ _ _ _ hheld => cases hheld.2

/-- Segments that say the same and end in the name of the file lead to the same file. -/
theorem Lands.file_of_components_eq {bytes : ByteArray}
    (h : t.Lands .follow k l segments (.occupied m (.file bytes))) {segments' : List String}
    (hsame : segments'.filterMap Component.ofSegment? = segments.filterMap Component.ofSegment?)
    (hlast : segments'.getLast? = segments.getLast?) :
    t.Lands .follow k l segments' (.occupied m (.file bytes)) := by
  obtain ⟨front, s, rfl, hs⟩ := h.exists_of_file
  rw [List.getLast?_concat] at hlast
  obtain ⟨front', rfl⟩ := List.getLast?_eq_some_iff.1 hlast
  rw [List.filterMap_append, List.filterMap_append, List.append_left_inj] at hsame
  obtain ⟨k', d, hleads, hend⟩ := h.leads (Or.inl ⟨s, List.mem_singleton_self s, hs.1⟩)
  exact (hleads.of_components_eq hsame).lands (Or.inl rfl) hend

end Tree

/-! ### What the system takes -/

/-- Parts left out, and the separators that go with them. -/
theorem intercalate_sublist {parts parts' : List (List Char)} (h : parts.Sublist parts')
    (sep : List Char) : (sep.intercalate parts).Sublist (sep.intercalate parts') := by
  induction h with
  | slnil => exact List.Sublist.refl _
  | @cons parts parts' part _ ih =>
    refine ih.trans ?_
    cases parts' with
    | nil => exact List.nil_sublist _
    | cons next parts' =>
      rw [List.intercalate_cons_cons]
      exact List.sublist_append_right _ _
  | @cons_cons parts parts' part h ih =>
    cases parts with
    | nil =>
      cases parts' with
      | nil => exact List.Sublist.refl _
      | cons next parts' =>
        rw [List.intercalate_cons_cons, List.intercalate_singleton, List.append_assoc]
        exact List.sublist_append_left _ _
    | cons first parts =>
      obtain ⟨next, parts', rfl⟩ := List.exists_cons_of_ne_nil (l := parts')
        (fun hnil => by subst hnil; cases h)
      rw [List.intercalate_cons_cons, List.intercalate_cons_cons]
      exact (List.Sublist.refl _).append ih

theorem mem_or_exists_of_mem_intercalate {parts : List (List Char)} {sep : List Char} {c : Char}
    (h : c ∈ sep.intercalate parts) : c ∈ sep ∨ ∃ part ∈ parts, c ∈ part := by
  induction parts with
  | nil => cases h
  | cons part parts ih =>
    cases parts with
    | nil => exact Or.inr ⟨part, List.mem_singleton_self part, by simpa using h⟩
    | cons next parts =>
      rw [List.intercalate_cons_cons, List.mem_append, List.mem_append] at h
      rcases h with (h | h) | h
      · exact Or.inr ⟨part, List.mem_cons_self, h⟩
      · exact Or.inl h
      · exact (ih h).imp_right fun ⟨p, hp, hc⟩ => ⟨p, List.mem_cons_of_mem _ hp, hc⟩

namespace Path

variable {p q : Path}

theorem toList_text_sublist (hrooted : q.rooted = p.rooted) (h : q.segments.Sublist p.segments) :
    q.text.toList.Sublist p.text.toList := by
  rw [toList_text, toList_text, hrooted]
  exact (List.Sublist.refl _).append (intercalate_sublist (h.map _) _)

theorem toList_sublist_text {s : String} (h : s ∈ p.segments) :
    s.toList.Sublist p.text.toList := by
  have hpart := intercalate_sublist ((List.singleton_sublist.2 h).map String.toList) ['/']
  rw [List.map_singleton, List.intercalate_singleton] at hpart
  rw [toList_text]
  exact hpart.trans (List.sublist_append_right _ _)

theorem eq_slash_or_exists_of_mem_text {c : Char} (h : c ∈ p.text.toList) :
    c = '/' ∨ ∃ s ∈ p.segments, c ∈ s.toList := by
  rw [toList_text, List.mem_append] at h
  rcases h with h | h
  · split at h <;> simp_all
  · refine (mem_or_exists_of_mem_intercalate h).imp List.mem_singleton.1 fun ⟨part, hpart, hc⟩ => ?_
    obtain ⟨s, hs, rfl⟩ := List.mem_map.1 hpart
    exact ⟨s, hs, hc⟩

namespace Shortens

theorem refl (p : Path) : p.Shortens p := ⟨rfl, List.Sublist.refl _, rfl, rfl⟩

/-- What says something is not taken out. -/
theorem mem_of_mem (h : q.Shortens p) {s : String} (hs : s ∈ p.segments)
    (hblank : ¬(s = "" ∨ s = ".")) : s ∈ q.segments := by
  obtain ⟨c, hc⟩ := Option.ne_none_iff_exists'.1
    (mt Component.ofSegment?_eq_none_iff.1 hblank)
  have hmem : c ∈ p.segments.filterMap Component.ofSegment? := List.mem_filterMap.2 ⟨s, hs, hc⟩
  rw [← h.components_eq] at hmem
  obtain ⟨s', hs', hc'⟩ := List.mem_filterMap.1 hmem
  have htext : ∀ {a : String}, Component.ofSegment? a = some c → c.text = a := by
    intro a ha
    unfold Component.ofSegment? at ha
    split at ha
    · cases ha
    split at ha
    next hup =>
      cases ha
      exact hup.symm
    · cases ha
      rfl
  rwa [← htext hc, htext hc']

/-- A relative path follows a shortened path as it follows the whole of it. -/
theorem join (h : q.Shortens p) {more : List String} (hmore : more ≠ []) :
    (q.join ⟨false, more⟩).Shortens ⟨p.rooted, p.segments ++ more⟩ := by
  obtain ⟨front, hfront, hjoin⟩ := exists_join_eq q
  rw [hjoin]
  have hle : front.Sublist q.segments := by
    rcases hfront with hfront | hfront <;> rw [hfront]
    exact List.sublist_append_left _ _
  have hsame : front.filterMap Component.ofSegment? =
      q.segments.filterMap Component.ofSegment? := by
    rcases hfront with hfront | hfront <;> rw [hfront]
    simp [Component.ofSegment?_eq_none_iff.2 (Or.inl rfl)]
  refine ⟨h.rooted_eq, (hle.trans h.sublist).append (List.Sublist.refl _), ?_, ?_⟩
  · rw [List.filterMap_append, List.filterMap_append, hsame, h.components_eq]
  · rw [List.getLast?_append_of_ne_nil _ hmore, List.getLast?_append_of_ne_nil _ hmore]

theorem admissible (h : q.Shortens p) (hp : p.Admissible) (hne : q.text ≠ "") : q.Admissible where
  nul_not_mem := fun hmem =>
    hp.nul_not_mem ((toList_text_sublist h.rooted_eq h.sublist).subset hmem)
  text_ne := hne
  text_short := by
    have hle := String.utf8Len_le_of_sublist (toList_text_sublist h.rooted_eq h.sublist)
    rw [String.utf8Len_toList, String.utf8Len_toList] at hle
    exact Nat.lt_of_le_of_lt hle hp.text_short
  names_short := fun s hs => hp.names_short s (h.sublist.subset hs)

theorem admissible_of (h : q.Shortens p) (hq : q.Admissible)
    (hshort : p.text.utf8ByteSize < Tree.pathBytesBound) : p.Admissible where
  nul_not_mem := by
    intro hmem
    obtain hslash | ⟨s, hs, hc⟩ := eq_slash_or_exists_of_mem_text hmem
    · exact absurd hslash (by decide)
    · by_cases hblank : s = "" ∨ s = "."
      · rcases hblank with rfl | rfl <;> exact absurd hc (by decide)
      · exact hq.nul_not_mem ((toList_sublist_text (h.mem_of_mem hs hblank)).subset hc)
  text_ne := by
    intro hempty
    have hle := toList_text_sublist h.rooted_eq h.sublist
    rw [hempty, String.toList_empty, List.sublist_nil, String.toList_eq_nil_iff] at hle
    exact hq.text_ne hle
  text_short := hshort
  names_short := by
    intro s hs
    by_cases hblank : s = "" ∨ s = "."
    · exact utf8ByteSize_le_of_not_name (hblank.imp_right Or.inl)
    · exact hq.names_short s (h.mem_of_mem hs hblank)

/-- A shortened spelling finds the file that the whole path finds. -/
theorem find_file (h : q.Shortens p) {t : Tree} {l : Location} {bytes : ByteArray}
    (hfind : t.find p = .ok (l, .file bytes)) : t.find q = .ok (l, .file bytes) := by
  obtain ⟨hadm, hlands⟩ := Tree.find_eq_ok_iff.1 hfind
  have hlands' := hlands.file_of_components_eq h.components_eq h.last_eq
  refine Tree.find_eq_ok_iff.2 ⟨h.admissible hadm fun hempty => ?_, hlands'⟩
  obtain ⟨front, s, hsegments, hs⟩ := hlands'.exists_of_file
  have hle : s.toList.Sublist q.text.toList := toList_sublist_text (hsegments ▸ by simp)
  rw [hempty, String.toList_empty, List.sublist_nil, String.toList_eq_nil_iff] at hle
  exact hs.1 hle

/-- They find the same files, where the whole path is not too long. -/
theorem find_file_iff (h : q.Shortens p) (hshort : p.text.utf8ByteSize < Tree.pathBytesBound)
    {t : Tree} {l : Location} {bytes : ByteArray} :
    t.find q = .ok (l, .file bytes) ↔ t.find p = .ok (l, .file bytes) := by
  refine ⟨fun hfind => ?_, h.find_file⟩
  obtain ⟨hadm, hlands⟩ := Tree.find_eq_ok_iff.1 hfind
  exact Tree.find_eq_ok_iff.2 ⟨h.admissible_of hadm hshort,
    hlands.file_of_components_eq h.components_eq.symm h.last_eq.symm⟩

end Shortens

/-! ### Paths that say names -/

/-- What a path says that is followed from another. -/
theorem components_join {p q : Path} (hq : q.rooted = false) (hhere : .here ∉ q.components) :
    (p.join q).components = p.components ++ q.components := by
  have hhead : ¬q.segments.head? = some "." := by
    intro hdot
    refine hhere (List.mem_append_left _ ?_)
    rw [hq, if_neg (by simp), if_pos hdot]
    exact List.mem_singleton_self _
  have hcomponents : q.components = q.segments.filterMap Component.ofSegment? := by
    rw [components, hq, if_neg (by simp), if_neg hhead, List.nil_append]
  obtain ⟨rooted, segments⟩ := q
  obtain rfl : rooted = false := hq
  obtain ⟨front, hfront, hjoin⟩ := exists_join_eq p
  have hsame : p.segments.filterMap Component.ofSegment? =
      front.filterMap Component.ofSegment? := by
    rcases hfront with hfront | hfront <;> rw [hfront]
    simp [Component.ofSegment?_eq_none_iff.2 (Or.inl rfl)]
  have hdot : (front ++ segments).head? = some "." ↔ p.segments.head? = some "." := by
    cases front with
    | nil =>
      rcases hfront with hfront | hfront <;> rw [hfront] <;> simpa using hhead
    | cons s front => rcases hfront with hfront | hfront <;> rw [hfront] <;> simp
  rw [hjoin, hcomponents, components, components, hsame, List.filterMap_append, List.append_assoc]
  simp only [hdot]

theorem sublist_of_filterMap_eq {segments names : List String}
    (h : segments.filterMap Component.ofSegment? = names.map .name) : names.Sublist segments := by
  induction segments generalizing names with
  | nil =>
    rw [List.filterMap_nil] at h
    rw [List.map_eq_nil_iff.1 h.symm]
  | cons s segments ih =>
    cases hs : Component.ofSegment? s with
    | none =>
      rw [List.filterMap_cons_none hs] at h
      exact (ih h).cons s
    | some c =>
      rw [List.filterMap_cons_some hs] at h
      obtain ⟨name, names, rfl⟩ := List.exists_cons_of_ne_nil (l := names) (by
        rintro rfl
        cases h)
      obtain ⟨rfl, hrest⟩ := List.cons.inj h
      obtain ⟨rfl, -⟩ := Component.eq_of_ofSegment? hs
      exact (ih hrest).cons_cons s

section Spelled

variable {relative : Path} {names : List String} (h : relative.components = names.map .name)

include h

theorem rooted_of_components : relative.rooted = false := by
  rw [components] at h
  by_contra hrooted
  rw [if_pos (by simpa using hrooted)] at h
  cases names <;> cases h

theorem filterMap_segments_of_components :
    relative.segments.filterMap Component.ofSegment? = names.map .name := by
  have hrooted := rooted_of_components h
  rw [components, hrooted, if_neg (by simp)] at h
  split at h
  · cases names <;> cases h
  · exact h

/-- The directories and the name that a path says are the shortest of its spellings. -/
theorem shortens_descend (hne : names ≠ []) (hnames : ∀ s ∈ names, IsName s)
    {last : String} (hlast : relative.segments.getLast? = some last) (hname : IsName last)
    (root : Path) : (root.descend names).Shortens (root.join relative) := by
  have hrooted := rooted_of_components h
  have hsame := filterMap_segments_of_components h
  obtain ⟨rooted, segments⟩ := relative
  obtain rfl : rooted = false := hrooted
  obtain ⟨front, -, hjoin⟩ := exists_join_eq root
  rw [← join_ofNames hne hnames, ofNames_of_ne_nil hne, hjoin, hjoin]
  refine ⟨rfl, (List.Sublist.refl front).append (sublist_of_filterMap_eq hsame), ?_, ?_⟩
  · rw [List.filterMap_append, List.filterMap_append, hsame, filterMap_ofSegment?_of_isName hnames]
  · obtain ⟨before, rfl⟩ : ∃ before, segments = before ++ [last] :=
      List.getLast?_eq_some_iff.1 hlast
    rw [List.filterMap_append, List.filterMap_cons_some
      (Component.ofSegment?_eq_name_iff.2 hname), List.filterMap_nil] at hsame
    have hnameslast := congrArg List.getLast? hsame
    rw [List.getLast?_concat, List.getLast?_map] at hnameslast
    rw [List.getLast?_append_of_ne_nil _ hne, ← List.append_assoc, List.getLast?_concat]
    cases hend : names.getLast? with
    | none => rw [hend] at hnameslast; cases hnameslast
    | some name =>
      rw [hend] at hnameslast
      cases hnameslast
      rfl

/-- Along the shortest spelling the same files are found. -/
theorem isFile_descend (hne : names ≠ []) (hnames : ∀ s ∈ names, IsName s) {root : Path}
    {t : Tree} (hfile : t.isFile (root.join relative) = true) :
    t.isFile (root.descend names) = true := by
  obtain ⟨l, bytes, hfind⟩ := Tree.isFile_iff.1 hfile
  obtain ⟨before, last, hlast, hname⟩ := (Tree.find_eq_ok_iff.1 hfind).2.exists_of_file
  have hsegments : relative.segments ≠ [] := by
    intro hnil
    have hsame := filterMap_segments_of_components h
    rw [hnil] at hsame
    exact hne (List.map_eq_nil_iff.1 hsame.symm)
  have hend : relative.segments.getLast? = some last := by
    obtain ⟨front, -, hjoin⟩ := exists_join_eq root
    have hall := hjoin relative.segments
    rw [← rooted_of_components h] at hall
    have hlast' := congrArg List.getLast? hlast
    rw [hall, List.getLast?_append_of_ne_nil _ hsegments, List.getLast?_concat] at hlast'
    exact hlast'
  exact Tree.isFile_iff.2
    ⟨l, bytes, (shortens_descend h hne hnames hend hname root).find_file hfind⟩

/-- Below one root paths of names agree only where the names do. -/
theorem agrees_descend_iff {names' : List String} (hne : names' ≠ [])
    (hnames : ∀ s ∈ names', IsName s) (root : Path) :
    (root.descend names').agrees (root.join relative) = true ↔ names' = names := by
  have hhere : ∀ {cs : List String}, Component.here ∉ cs.map Component.name := by simp
  rw [agrees, beq_iff_eq, ← join_ofNames hne hnames,
    components_join (by rw [ofNames_of_ne_nil hne]) (by simp [components_ofNames hnames]),
    components_join (rooted_of_components h) (h ▸ hhere), List.append_right_inj, h,
    components_ofNames hnames]
  simp only [Bool.false_eq_true, if_false, List.nil_append]
  exact List.map_inj_right fun _ _ => Component.name.inj

end Spelled

end Path

end Branding
