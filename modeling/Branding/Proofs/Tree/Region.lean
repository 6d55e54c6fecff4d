import Branding.Proofs.Path.Outward
import Branding.Proofs.Tree.Edits

/-!
# Work inside a directory

A tree may hold links wherever it likes, and the path to a directory may pass them. Where no link is
in the directory itself, every path that goes on from there by names leads where its names say. So
what a run does by such paths it does inside the directory, and the path to the directory leads
there afterwards as before, because nothing that it passes is ever taken away.

## Main definitions

* `Location.Apart` — neither of two locations lies at or below the other
* `Tree.KeepsBelow` — everything at and below a location is what it was
* `Tree.PlainAt` — a path to a directory without links in it
* `Tree.Confined` — such a directory stays one, and nothing outside it has become different
* `Tree.MakesAt` — the same, where directories have been made

## Main results

* `Tree.PlainAt.land_location`, `Tree.PlainAt.find_descend_iff` — paths by names lead where they say
* `Edit.confined_writeFile`, `Edit.confined_unlink`, `Edit.makesAt_makeDirectory` — single changes
-/

namespace Branding

/-! ### Two locations apart -/

/-- Neither of two locations lies at or below the other. -/
def Location.Apart (l m : Location) : Prop := ¬l <+: m ∧ ¬m <+: l

namespace Location.Apart

variable {l m : Location}

theorem symm (h : Location.Apart l m) : Location.Apart m l := ⟨h.2, h.1⟩

theorem not_prefix_append (h : Location.Apart l m) (names : List String) : ¬l <+: m ++ names := by
  intro hl
  rcases List.prefix_or_prefix_of_prefix hl (List.prefix_append m names) with hlm | hml
  · exact h.1 hlm
  · exact h.2 hml

theorem append_ne (h : Location.Apart l m) (names names' : List String) :
    l ++ names ≠ m ++ names' :=
  fun heq => h.not_prefix_append names' (heq ▸ List.prefix_append l names)

end Location.Apart

namespace Tree

variable {t t' : Tree} {p : Path} {l m : Location} {names : List String}

/-- Everything at and below a location is what it was. -/
def KeepsBelow (l : Location) (t t' : Tree) : Prop := ∀ m, l <+: m → t'.get? m = t.get? m

namespace KeepsBelow

variable {t'' : Tree}

theorem refl (l : Location) (t : Tree) : KeepsBelow l t t := fun _ _ => rfl

theorem trans (h : KeepsBelow l t t') (h' : KeepsBelow l t' t'') : KeepsBelow l t t'' :=
  fun m hm => (h' m hm).trans (h m hm)

theorem get?_append (h : KeepsBelow l t t') (names : List String) :
    t'.get? (l ++ names) = t.get? (l ++ names) :=
  h _ (List.prefix_append l names)

/-- Directories around a location that is apart are made elsewhere. -/
theorem of_grows (h : t.Grows (· <+: m) t') (hapart : Location.Apart l m) : KeepsBelow l t t' :=
  fun _ hn => h.get?_of_not fun hle => hapart.1 (hn.trans hle)

end KeepsBelow

/-! ### Paths that go on from a directory -/

/-- What is below a directory that a path leads to is found by going on with names. -/
theorem exists_land_descend_iff (h : t.find p = .ok (l, .directory)) :
    ∃ k, ∀ {mode : LastName} {names : List String} {x : Landing}, names ≠ [] →
      (∀ name ∈ names, IsName name) →
      (t.land mode (p.descend names) = .ok x ↔
        (p.descend names).Admissible ∧ t.Lands mode k l names x) := by
  obtain ⟨-, k, hleads⟩ := find_directory_iff.1 h
  obtain ⟨front, hfront, hdescend⟩ := Path.exists_descend_eq p
  have hfirst : t.Leads maxLinks [] front k l := by
    rcases hfront with hfront | hfront
    · rwa [hfront] at hleads
    · rw [hfront] at hleads
      exact (leads_append_blank_iff (by simp)).1 hleads
  refine ⟨k, fun {mode names x} hne hnames => ?_⟩
  have hrest : ∃ s ∈ names, s ≠ "" := by
    obtain ⟨name, rest, rfl⟩ := List.exists_cons_of_ne_nil hne
    exact ⟨name, List.mem_cons_self, (hnames name List.mem_cons_self).1⟩
  rw [land_eq_ok_iff, hdescend names hne hnames]
  refine and_congr_right fun _ =>
    ⟨fun hlands => ?_, fun hlands => hfirst.lands (Or.inr hrest) hlands⟩
  obtain ⟨k', d, hleads', hlands'⟩ := hlands.leads (Or.inl hrest)
  obtain ⟨rfl, rfl⟩ := hfirst.unique hleads'
  exact hlands'

/-- What there is below a directory that a path leads to is come to by its names, where the system
takes the path. -/
theorem land_descend_of_get? (h : t.find p = .ok (l, .directory)) {mode : LastName}
    (hmode : mode ≠ .create) (hne : names ≠ []) (hnames : ∀ name ∈ names, IsName name)
    (hadm : (p.descend names).Admissible) {e : Entry} (he : t.get? (l ++ names) = some e)
    (hlink : mode.holds = true ∨ ∀ target, e ≠ .link target) :
    t.land mode (p.descend names) = .ok (.occupied (l ++ names) e) := by
  obtain ⟨k, hiff⟩ := exists_land_descend_iff h
  have hshort : ∀ name ∈ names, name.utf8ByteSize ≤ maxNameBytes := by
    intro name hname
    refine hadm.names_short name ?_
    rw [Path.mem_segments_descend (hnames name hname).1]
    exact Or.inr hname
  exact (hiff hne hnames).2 ⟨hadm, lands_of_get? hmode hnames hshort (get?_of_find h) he hlink⟩

/-- A path to a directory in which no entry is a link, and every name stands for itself. -/
structure PlainAt (t : Tree) (p : Path) (l : Location) : Prop where
  found : t.find p = .ok (l, .directory)
  no_link : ∀ (names : List String) (target : Path), t.get? (l ++ names) ≠ some (.link target)
  isName : ∀ {names : List String} {e : Entry}, t.get? (l ++ names) = some e →
    ∀ name ∈ names, IsName name

theorem Plain.plainAt (ht : t.Plain) (h : t.isDirectory p = true) : t.PlainAt p p.lexical := by
  obtain ⟨l, hfind⟩ := isDirectory_iff.1 h
  obtain ⟨rfl, -⟩ := ht.find_eq_ok hfind
  exact ⟨hfind, fun _ target => ht.no_link _ target,
    fun he name hname => ht.isName_of_mem he name (List.mem_append_right _ hname)⟩

namespace PlainAt

/-- Nothing is in a directory that is empty, so no link is. -/
theorem of_empty (hfound : t.find p = .ok (l, .directory))
    (h : ∀ more, more ≠ [] → t.get? (l ++ more) = none) : t.PlainAt p l := by
  have hdir := get?_of_find hfound
  have hnil : ∀ {names : List String} {e : Entry}, t.get? (l ++ names) = some e → names = [] := by
    intro names e he
    by_contra hne
    rw [h names hne] at he
    cases he
  refine ⟨hfound, fun names target he => ?_, fun he name hname => ?_⟩
  · obtain rfl := hnil he
    rw [List.append_nil, hdir] at he
    cases he
  · rw [hnil he] at hname
    cases hname

theorem get? (h : t.PlainAt p l) : t.get? l = some .directory := by
  obtain ⟨-, k, hleads⟩ := find_directory_iff.1 h.found
  exact hleads.get? t.get?_nil

theorem land_location (h : t.PlainAt p l) (hne : names ≠ []) (hnames : ∀ name ∈ names, IsName name)
    {mode : LastName} {x : Landing} (hland : t.land mode (p.descend names) = .ok x) :
    x.location = l ++ names ∧ (p.descend names).Admissible := by
  obtain ⟨k, hiff⟩ := exists_land_descend_iff h.found
  obtain ⟨hadm, hlands⟩ := (hiff hne hnames).1 hland
  exact ⟨hlands.location_eq hnames fun more _ _ _ target => h.no_link more target, hadm⟩

/-- What there is below the directory is what is found there, where the system takes the path. -/
theorem find_descend_iff (h : t.PlainAt p l) (hnames : ∀ name ∈ names, IsName name) {e : Entry} :
    t.find (p.descend names) = .ok (m, e) ↔
      (p.descend names).Admissible ∧ m = l ++ names ∧ t.get? (l ++ names) = some e := by
  by_cases hne : names = []
  · subst hne
    rw [List.append_nil]
    show t.find p = .ok (m, e) ↔ p.Admissible ∧ m = l ∧ t.get? l = some e
    rw [h.found, h.get?]
    constructor
    · intro heq
      cases heq
      exact ⟨(find_directory_iff.1 h.found).1, rfl, rfl⟩
    · rintro ⟨-, rfl, he⟩
      cases he
      rfl
  rw [find_eq_ok_iff, ← land_eq_ok_iff]
  constructor
  · intro hland
    obtain ⟨hlocation, hadm⟩ := h.land_location hne hnames hland
    obtain rfl : m = l ++ names := hlocation
    exact ⟨hadm, rfl, get?_of_land_occupied hland⟩
  · rintro ⟨hadm, rfl, he⟩
    have hmode : LastName.follow ≠ .create := by decide
    refine land_descend_of_get? h.found hmode hne hnames hadm he (Or.inr ?_)
    rintro target rfl
    exact h.no_link names target he

/-- Nothing can be made on the way to the directory. -/
theorem not_free_of_prefix (h : t.PlainAt p l) {q : Path}
    (hq : q = .start true ∨ q.rooted = true ∧ q.segments <+: p.segments) :
    t.land .name q ≠ .ok (.free m) := by
  obtain ⟨-, k, hleads⟩ := find_directory_iff.1 h.found
  rcases hq with rfl | ⟨-, rest, hrest⟩
  · exact not_free_start
  · rw [← hrest] at hleads
    obtain ⟨k', d, hfirst, -⟩ := hleads.cut
    exact not_free_of_leads hfirst

/-- The path leads to the directory still, and what is in it is the same. -/
theorem of_found (h : t.PlainAt p l) (hfound : t'.find p = .ok (l, .directory))
    (hsame : t.KeepsBelow l t') : t'.PlainAt p l where
  found := hfound
  no_link names target := by
    rw [hsame.get?_append]
    exact h.no_link names target
  isName he := h.isName ((hsame.get?_append _).symm.trans he)

/-- The directory stays one when something in it changes, unless a directory is taken away. -/
theorem of_sets (h : t.PlainAt p l) {e : Option Entry} (hsets : t.Sets (l ++ names) e t')
    (hnames : ∀ name ∈ names, IsName name) (he : ∀ target, e ≠ some (.link target))
    (hdir : t.get? (l ++ names) = some .directory → e = some .directory) : t'.PlainAt p l := by
  have hways : t.KeepsWays t' := hsets.keepsWays fun e' he' hfile => by
    cases e' with
    | directory => exact hdir he'
    | file bytes => exact absurd rfl (hfile bytes)
    | link target => exact absurd he' (h.no_link names target)
  refine ⟨hways.find h.found, fun names' target => ?_, fun {names' e'} he' => ?_⟩
  · rw [hsets]
    split
    · exact he target
    · exact h.no_link names' target
  · rw [hsets] at he'
    split at he'
    next heq =>
      rw [List.append_cancel_left heq]
      exact hnames
    next => exact h.isName he'

end PlainAt

/-! ### What stays inside a directory -/

/-- The path to a directory leads there as before, still no link is in it, and nothing outside it
has become different. -/
def Confined (p : Path) (l : Location) (t t' : Tree) : Prop :=
  t.PlainAt p l → t'.PlainAt p l ∧ ∀ m, ¬l <+: m → t'.get? m = t.get? m

instance (p : Path) (l : Location) : Std.Refl (Confined p l) where
  refl _ h := ⟨h, fun _ _ => rfl⟩

instance (p : Path) (l : Location) : IsTrans Tree (Confined p l) where
  trans _ _ _ h h' hp :=
    ⟨(h' (h hp).1).1, fun m hm => ((h' (h hp).1).2 m hm).trans ((h hp).2 m hm)⟩

/-- What is confined to a directory keeps what is apart from there. -/
theorem Confined.keepsBelow (h : t.Confined p l t') (hp : t.PlainAt p l)
    (hapart : Location.Apart m l) :
    KeepsBelow m t t' := by
  rintro n ⟨names, rfl⟩
  exact (h hp).2 _ (hapart.symm.not_prefix_append names)

theorem PlainAt.confined (h : t.PlainAt p l) {e : Option Entry} (hsets : t.Sets (l ++ names) e t')
    (hnames : ∀ name ∈ names, IsName name) (he : ∀ target, e ≠ some (.link target))
    (hdir : t.get? (l ++ names) = some .directory → e = some .directory) :
    t'.PlainAt p l ∧ ∀ m, ¬l <+: m → t'.get? m = t.get? m :=
  ⟨h.of_sets hsets hnames he hdir,
    fun _ hm => hsets.elsewhere fun heq => hm (heq ▸ List.prefix_append l names)⟩

/-- Directories have been made inside a directory, at some locations, and nothing else. -/
def MakesAt (p : Path) (l : Location) (P : Location → Prop) (t t' : Tree) : Prop :=
  t.PlainAt p l → t'.PlainAt p l ∧ t.Grows P t'

instance (p : Path) (l : Location) (P : Location → Prop) : Std.Refl (MakesAt p l P) where
  refl t h := ⟨h, .refl P t⟩

instance (p : Path) (l : Location) (P : Location → Prop) : IsTrans Tree (MakesAt p l P) where
  trans _ _ _ h h' hp := ⟨(h' (h hp).1).1, (h hp).2.trans (h' (h hp).1).2⟩

/-- Where directories are made inside a directory, everything outside it is left alone. -/
theorem MakesAt.confined {P : Location → Prop} (hP : ∀ m, P m → l <+: m) (h : t.MakesAt p l P t') :
    t.Confined p l t' :=
  fun hp => ⟨(h hp).1, fun m hm => (h hp).2.get?_of_not fun hin => hm (hP m hin)⟩

end Tree

namespace Edit

variable {t t' : Tree} {p q : Path} {l : Location} {names : List String}

theorem confined_writeFile (hne : names ≠ []) (hnames : ∀ name ∈ names, IsName name)
    (bytes : ByteArray) : Moves (Tree.Confined p l) (writeFile (p.descend names) bytes) := by
  refine moves_writeFile_of fun t landing hland hnot hsets hp => ?_
  obtain ⟨hlocation, -⟩ := hp.land_location hne hnames hland
  rw [hlocation] at hnot hsets ⊢
  exact hp.confined hsets hnames (by simp) fun hdir => absurd hdir hnot

/-- A file that was written below the directory. -/
theorem writeFile_sets (hr : t.PlainAt p l) (hne : names ≠ [])
    (hnames : ∀ name ∈ names, IsName name)
    {bytes : ByteArray} {u : Unit} (h : writeFile (p.descend names) bytes t = (.ok u, t')) :
    (p.descend names).Admissible ∧ t.get? (l ++ names) ≠ some .directory ∧
      t.Sets (l ++ names) (some (.file bytes)) t' := by
  rcases writeFile_cases (p.descend names) bytes t with
    ⟨landing, hland, hnot, hrun, hsets⟩ | ⟨r, hrun⟩
  · obtain ⟨hlocation, hadm⟩ := hr.land_location hne hnames hland
    rw [hrun] at h
    cases h
    rw [hlocation] at hnot hsets
    exact ⟨hadm, hnot, hlocation ▸ hsets⟩
  · rw [hrun] at h
    cases h

theorem confined_unlink (hne : names ≠ []) (hnames : ∀ name ∈ names, IsName name) :
    Moves (Tree.Confined p l) (unlink (p.descend names)) := by
  refine moves_unlink_of fun t m e hland he hsets hp => ?_
  obtain ⟨hlocation, -⟩ := hp.land_location hne hnames hland
  obtain rfl : m = l ++ names := hlocation
  refine hp.confined hsets hnames (by simp) fun hdir => ?_
  rw [Tree.get?_of_land_occupied hland] at hdir
  exact absurd (Option.some.inj hdir) he

/-- A directory below another one is made where its names say. -/
theorem makesAt_makeDirectory_descend {P : Location → Prop} (hne : names ≠ [])
    (hnames : ∀ name ∈ names, IsName name) (hP : P (l ++ names)) :
    Moves (Tree.MakesAt p l P) (makeDirectory (p.descend names)) := by
  refine moves_makeDirectory_of fun t m hland hsets hp => ?_
  obtain ⟨hlocation, -⟩ := hp.land_location hne hnames hland
  obtain rfl : m = l ++ names := hlocation
  exact ⟨hp.of_sets hsets hnames (by simp) fun _ => rfl,
    .of_sets hP (Tree.accepts_of_land_free hland).1 hsets⟩

/-- None of the directories around a path below a directory is made outside it. -/
theorem makesAt_makeDirectory (hrooted : p.rooted = true) (hne : names ≠ [])
    (hnames : ∀ name ∈ names, IsName name) (hq : q ∈ (p.descend names).enclosing) :
    Moves (Tree.MakesAt p l fun m => l <+: m ∧ m <+: l ++ names) (makeDirectory q) := by
  rcases Path.mem_enclosing_descend hrooted hne hnames hq with ⟨front, hfront, hle, -, rfl⟩ | hq
  · exact makesAt_makeDirectory_descend hfront (fun name hname => hnames name (hle.subset hname))
      ⟨List.prefix_append _ _, (List.prefix_append_right_inj l).2 hle⟩
  · exact moves_makeDirectory_of fun t m hland _ hp => absurd hland (hp.not_free_of_prefix hq)

end Edit

end Branding
