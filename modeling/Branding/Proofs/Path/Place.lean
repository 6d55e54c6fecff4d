import Branding.Loader.Placement
import Branding.Proofs.Path.Lexical
import Branding.Proofs.Path.Text
import Branding.Settings.Load
import Mathlib.Data.List.Induction

/-!
# Places inside a tree

The places of a layout are given by settings, which may hold dots and doubled slashes, and are
compared with paths that a walk comes by, which hold neither. Settings that pass their checks give
places that are paths of names, at least one of them, and such a path is followed from any root name
by name.

## Main definitions

* `Path.IsPlace` — a path of names, spelled as a walk spells it
* `Layout.IsPlaced` — a layout of such paths

## Main results

* `Path.IsPlace.join_eq_descend` — a place is followed name by name
* `Layout.isPlaced_ofSettings` — settings that pass the checks give places
-/

namespace Branding

/-- A path of names, spelled as a walk spells it. -/
structure Path.IsPlace (p : Path) : Prop where
  lexical_ne : p.lexical ≠ []
  ofNames_lexical : Path.ofNames false p.lexical = p

namespace Path

/-! ### Following a path of names -/

theorem ofNames_of_ne_nil {names : List String} (h : names ≠ []) (rooted : Bool) :
    ofNames rooted names = ⟨rooted, names⟩ := by
  rw [ofNames, if_neg (by simpa using h)]

/-- A relative path is put after the segments of a path, whose last slash is written once. -/
theorem exists_join_eq (p : Path) : ∃ front : List String,
    (p.segments = front ∨ p.segments = front ++ [""]) ∧
      ∀ segments : List String, p.join ⟨false, segments⟩ = ⟨p.rooted, front ++ segments⟩ := by
  by_cases hlast : p.segments.getLast? = some ""
  · obtain ⟨front, hfront⟩ := List.getLast?_eq_some_iff.1 hlast
    refine ⟨front, Or.inr hfront, fun segments => ?_⟩
    rw [join, if_neg (by simp), if_pos hlast, hfront, List.dropLast_concat]
  · refine ⟨p.segments, Or.inl rfl, fun segments => ?_⟩
    rw [join, if_neg (by simp), if_neg hlast]

theorem child_concat {last : String} (h : last ≠ "") (rooted : Bool) (front : List String)
    (name : String) :
    child ⟨rooted, front ++ [last]⟩ name = ⟨rooted, front ++ [last] ++ [name]⟩ := by
  rw [child, join, if_neg (by simp), if_neg (by simp [h])]

/-- A path of names is followed name by name. -/
theorem join_ofNames {names : List String} (hne : names ≠ []) (h : ∀ s ∈ names, IsName s)
    (p : Path) : p.join (ofNames false names) = p.descend names := by
  rw [ofNames_of_ne_nil hne]
  induction names using List.reverseRecOn with
  | nil => exact absurd rfl hne
  | append_singleton front name ih =>
    rw [descend_concat]
    by_cases hfront : front = []
    · rw [hfront]
      rfl
    obtain ⟨before, last, rfl⟩ := (List.eq_nil_or_concat front).resolve_left hfront
    rw [List.concat_eq_append] at hfront ih h ⊢
    have hlast : last ≠ "" := (h last (by simp)).1
    obtain ⟨first, -, hjoin⟩ := exists_join_eq p
    rw [← ih hfront fun s hs => h s (List.mem_append_left _ hs), hjoin, hjoin, ← List.append_assoc,
      ← List.append_assoc, child_concat hlast]

theorem foldl_join_map_name {names : List String} (h : ∀ s ∈ names, '/' ∉ s.toList) (p : Path) :
    (names.map Component.name).foldl (fun p c => p.join (ofString c.text)) p = p.descend names := by
  induction names generalizing p with
  | nil => rfl
  | cons name names ih =>
    rw [List.forall_mem_cons] at h
    rw [List.map_cons, List.foldl_cons, ih h.2, Component.text, ofString_of_not_mem h.1]
    rfl

/-- Components without slashes are spelled out one after another. -/
theorem ofComponents_eq {cs : List Component} (h : ∀ c ∈ cs, c.text ≠ "" ∧ '/' ∉ c.text.toList) :
    ofComponents cs = ofNames false (cs.map Component.text) := by
  induction cs using List.reverseRecOn with
  | nil => rfl
  | append_singleton front c ih =>
    rw [List.forall_mem_append, List.forall_mem_singleton] at h
    rw [ofComponents, List.foldl_append, ← ofComponents, ih h.1, List.foldl_cons, List.foldl_nil,
      ofString_of_not_mem h.2.2, List.map_append, List.map_singleton]
    rcases List.eq_nil_or_concat front with rfl | ⟨before, last, rfl⟩
    · rfl
    · rw [List.concat_eq_append] at h ⊢
      have hlast : last.text ≠ "" := (h.1 last (by simp)).1
      rw [List.map_append, List.map_singleton, ofNames_of_ne_nil (by simp),
        ofNames_of_ne_nil (by simp)]
      exact child_concat hlast false _ _

/-- A path of names is shown as it is written. -/
theorem display_ofNames {names : List String} (h : ∀ s ∈ names, IsName s) :
    (ofNames false names).display = (ofNames false names).text := by
  rw [display, components_ofNames h, if_neg (by decide), List.nil_append, List.map_map]
  cases names with
  | nil => decide
  | cons first names =>
    rw [ofNames_of_ne_nil (by simp), text, if_neg (by simp), String.empty_append]
    exact congrArg _ (List.map_id _)

theorem isPlace_ofNames {names : List String} (hne : names ≠ []) (h : ∀ s ∈ names, IsName s) :
    (ofNames false names).IsPlace := by
  constructor
  · rwa [lexical_ofNames h]
  · rw [lexical_ofNames h]

namespace IsPlace

variable {place : Path}

theorem join_eq_descend (h : place.IsPlace) (root : Path) :
    root.join place = root.descend place.lexical := by
  rw [← join_ofNames h.lexical_ne (fun _ => isName_of_mem_lexical), h.ofNames_lexical]

/-- A path that a walk comes by agrees with a place when the names are those of the place. -/
theorem agrees_iff (h : place.IsPlace) {names : List String} (hnames : ∀ s ∈ names, IsName s) :
    (ofNames false names).agrees place = true ↔ names = place.lexical := by
  conv_lhs => rw [← h.ofNames_lexical]
  exact agrees_ofNames_iff hnames (fun _ => isName_of_mem_lexical) false

end IsPlace

end Path

/-! ### The places of a layout -/

theorem exists_names_of_all {cs : List Component}
    (h : cs.all (fun | .name _ | .here => true | _ => false) = true) :
    ∃ names : List String, cs.filter (· != .here) = names.map .name ∧
      ∀ s, s ∈ names ↔ Component.name s ∈ cs := by
  induction cs with
  | nil => exact ⟨[], rfl, by simp⟩
  | cons c cs ih =>
    rw [List.all_cons, Bool.and_eq_true] at h
    obtain ⟨names, hfilter, hmem⟩ := ih h.2
    cases c with
    | root | up => exact absurd h.1 (by simp)
    | here => exact ⟨names, by rw [List.filter_cons_of_neg (by simp), hfilter], by simp [hmem]⟩
    | name s =>
      refine ⟨s :: names, ?_, by simp [hmem]⟩
      rw [List.filter_cons_of_pos (by simp), hfilter, List.map_cons]

theorem Path.mem_segments_of_name_mem {p : Path} {s : String} (h : .name s ∈ p.components) :
    s ∈ p.segments ∧ IsName s := by
  rcases List.mem_append.1 h with h | h
  · split at h
    · simp at h
    · split at h <;> simp at h
  · obtain ⟨a, ha, hs⟩ := List.mem_filterMap.1 h
    obtain ⟨rfl, hname⟩ := Component.eq_of_ofSegment? hs
    exact ⟨ha, hname⟩

namespace Layout

/-- What names something inside a tree gives a path of the names in it. -/
theorem exists_place_eq {value : String} (h : Settings.isInside value = true) :
    ∃ names, names ≠ [] ∧ (∀ s ∈ names, IsName s ∧ '/' ∉ s.toList) ∧
      (Path.ofString value).components.filter (· != .here) = names.map .name ∧
        place value = .ofNames false names := by
  rw [Settings.isInside, Bool.and_eq_true, Bool.and_eq_true] at h
  obtain ⟨⟨-, hall⟩, hany⟩ := h
  obtain ⟨names, hfilter, hmem⟩ := exists_names_of_all hall
  have hnames : ∀ s ∈ names, IsName s ∧ '/' ∉ s.toList := by
    intro s hs
    obtain ⟨hsegment, hname⟩ := Path.mem_segments_of_name_mem ((hmem s).1 hs)
    exact ⟨hname, Path.slash_not_mem_of_mem_ofString hsegment⟩
  have hne : names ≠ [] := by
    rintro rfl
    obtain ⟨c, hc, hname⟩ := List.any_eq_true.1 hany
    cases c with
    | name s => exact absurd ((hmem s).2 hc) List.not_mem_nil
    | root | here | up => cases hname
  refine ⟨names, hne, hnames, hfilter, ?_⟩
  rw [place, hfilter, Path.ofComponents_eq, List.map_map]
  · exact congrArg _ (List.map_id names)
  · simp only [List.forall_mem_map]
    exact fun s hs => ⟨(hnames s hs).1.1, (hnames s hs).2⟩

/-- What names something inside a tree gives a place. -/
theorem isPlace_place {value : String} (h : Settings.isInside value = true) :
    (place value).IsPlace := by
  obtain ⟨names, hne, hnames, -, hplace⟩ := exists_place_eq h
  rw [hplace]
  exact Path.isPlace_ofNames hne fun s hs => (hnames s hs).1

/-- The special places of a tree are places. -/
structure IsPlaced (layout : Layout) : Prop where
  entryHelper : layout.entryHelper.IsPlace
  helpersDir : layout.helpersDir.IsPlace
  loaderFile : layout.loaderFile.IsPlace

/-- Settings that pass the checks name something inside the tree where they name a place. -/
theorem isInside_of_problem?_eq_none {s : Settings} (h : s.problem? = none) :
    Settings.isInside s.template.entryHelper = true ∧
      Settings.isInside s.template.helpersDir = true ∧
      Settings.isInside s.template.loaderFile = true := by
  have hinner := (Settings.problem?_eq_none_iff.1 h).2
  simp only [Settings.inner, List.forall_mem_cons] at hinner
  exact ⟨hinner.1, hinner.2.1, hinner.2.2.1⟩

theorem isPlaced_ofSettings {s : Settings} (h : s.problem? = none) :
    (ofSettings s.template).IsPlaced := by
  obtain ⟨hentryHelper, hhelpersDir, hloaderFile⟩ := isInside_of_problem?_eq_none h
  exact ⟨isPlace_place hentryHelper, isPlace_place hhelpersDir, isPlace_place hloaderFile⟩

/-- Where a strategy puts its loader is a place. -/
theorem IsPlaced.generated {layout : Layout} (h : layout.IsPlaced) (strategy : LoaderStrategy) :
    (layout.generated strategy).IsPlace := by
  cases strategy with
  | selfContained => exact h.loaderFile
  | external =>
    rw [Layout.generated]
    exact ⟨by decide +kernel, by decide +kernel⟩

end Layout

/-! ### The settings of a run -/

theorem Settings.problem?_of_load {home : Option String} {t : Tree} {start : Path} {s : Settings}
    (h : Settings.load home t start = .ok s) : s.problem? = none := by
  simp only [Settings.load, bind, Except.bind] at h
  cases hfile : fileFrom? t start with
  | none =>
    simp only [hfile] at h
    split at h
    · cases h
    next hproblem =>
      cases h
      exact hproblem
  | some file =>
    cases hread : read t file with
    | error fault => simp only [hfile, hread] at h; cases h
    | ok found =>
      simp only [hfile, hread] at h
      split at h
      · cases h
      next hproblem =>
        cases h
        exact hproblem

end Branding
