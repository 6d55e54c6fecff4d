import Branding.Proofs.Tree.Edits
import Branding.Proofs.Tree.Spelling

/-!
# The places that settings name

Three settings name places of a template tree, and each can be spelled in many ways: with dots, with
doubled slashes, with a slash at the end. The checks look at the components of a setting, and the
layout is made from them, so a spelling counts for the names in it and for nothing else. There is
one at least, and no component of a place leads out of the tree.

A place is shown by its names with slashes between them. That is a spelling of the place itself, and
the layout made from it is the same. It need not pass the checks: a name of blanks is let through
after a dot, and by itself it is taken for a setting that says nothing.

## Main definitions

* `Path.saidNames` — the names a path says
* `Layout.spellings` — the settings that name places, each with its place
* `Layout.respelled` — the settings with the places spelled as they are shown

## Main results

* `Layout.place_eq_ofNames` — a place is the names that its spelling says
* `Layout.place_display` — what is shown of a place spells it
* `Layout.placed_of_load` — the places of the settings that count
-/

namespace Branding

/-- The name a component says. -/
def Component.name? : Component → Option String
  | .name s => some s
  | .root | .here | .up => none

/-- The names a path says. -/
def Path.saidNames (p : Path) : List String := p.components.filterMap Component.name?

theorem filterMap_name?_map_name (names : List String) :
    (names.map Component.name).filterMap Component.name? = names := by
  rw [List.filterMap_map]
  exact List.filterMap_some

namespace Layout

/-- The settings that name places of a template tree, each with the place the layout has for it. -/
def spellings (s : TemplateSettings) : List (String × Path) := [
  (s.entryHelper, (ofSettings s).entryHelper),
  (s.helpersDir, (ofSettings s).helpersDir),
  (s.loaderFile, (ofSettings s).loaderFile)]

/-- The settings with the places spelled as they are shown. -/
def respelled (s : TemplateSettings) : TemplateSettings :=
  { s with
    entryHelper := (ofSettings s).entryHelper.display
    helpersDir := (ofSettings s).helpersDir.display
    loaderFile := (ofSettings s).loaderFile.display }

variable {value value' : String}

/-! ### One spelling -/

/-- A place is the names that its spelling says, at least one. -/
theorem place_eq_ofNames (h : Settings.isInside value = true) :
    (Path.ofString value).saidNames ≠ [] ∧
      (∀ s ∈ (Path.ofString value).saidNames, IsName s ∧ '/' ∉ s.toList) ∧
      place value = .ofNames false (Path.ofString value).saidNames := by
  obtain ⟨names, hne, hnames, hfilter, hplace⟩ := exists_place_eq h
  have hsaid : (Path.ofString value).saidNames = names := by
    rw [← filterMap_name?_map_name names, ← hfilter, List.filterMap_filter, Path.saidNames]
    refine List.filterMap_congr fun c _ => ?_
    cases c <;> rfl
  rw [hsaid]
  exact ⟨hne, hnames, hplace⟩

/-- Spellings of places give the same place when they say the same names. -/
theorem place_eq_place_iff (h : Settings.isInside value = true)
    (h' : Settings.isInside value' = true) :
    place value = place value' ↔
      (Path.ofString value).saidNames = (Path.ofString value').saidNames := by
  obtain ⟨hne, -, hplace⟩ := place_eq_ofNames h
  obtain ⟨hne', -, hplace'⟩ := place_eq_ofNames h'
  rw [hplace, hplace', Path.ofNames_of_ne_nil hne, Path.ofNames_of_ne_nil hne', Path.mk.injEq]
  exact and_iff_right rfl

/-- What is shown of a place spells it. -/
theorem place_display (h : Settings.isInside value = true) :
    place (place value).display = place value := by
  obtain ⟨-, hnames, hplace⟩ := place_eq_ofNames h
  have hisName : ∀ s ∈ (Path.ofString value).saidNames, IsName s := fun s hs => (hnames s hs).1
  have hread : Path.ofString (place value).display = place value := by
    rw [hplace, Path.display_ofNames hisName]
    exact Path.ofString_text_ofNames fun s hs => ⟨(hnames s hs).1.1, (hnames s hs).2⟩
  have hkept : ((Path.ofString value).saidNames.map Component.name).filter (· != .here) =
      (Path.ofString value).saidNames.map Component.name := by
    simp [List.filter_eq_self]
  rw [place, hread, hplace, Path.components_ofNames hisName, if_neg (by decide), List.nil_append,
    hkept, Path.ofComponents_eq, List.map_map]
  · exact congrArg _ (List.map_id _)
  · simp only [List.forall_mem_map]
    exact fun s hs => ⟨(hnames s hs).1.1, (hnames s hs).2⟩

/-! ### The places of settings that pass the checks -/

theorem of_mem_spellings {s : Settings} (h : s.problem? = none) {m : String × Path}
    (hm : m ∈ spellings s.template) : Settings.isInside m.1 = true ∧ m.2 = place m.1 := by
  obtain ⟨hentryHelper, hhelpersDir, hloaderFile⟩ := isInside_of_problem?_eq_none h
  simp only [spellings, List.mem_cons, List.not_mem_nil, or_false] at hm
  rcases hm with rfl | rfl | rfl
  · exact ⟨hentryHelper, rfl⟩
  · exact ⟨hhelpersDir, rfl⟩
  · exact ⟨hloaderFile, rfl⟩

theorem ofSettings_respelled {s : Settings} (h : s.problem? = none) :
    ofSettings (respelled s.template) = ofSettings s.template := by
  obtain ⟨hentryHelper, hhelpersDir, hloaderFile⟩ := isInside_of_problem?_eq_none h
  simp only [ofSettings, respelled, place_display hentryHelper, place_display hhelpersDir,
    place_display hloaderFile]

/-- The places of the settings that count are paths of names, at least one. Followed from a root
such a path says the names after all that the root says, and in a tree without links it leads to
nothing but what is at these names below the root. Two spellings that pass the checks, wherever,
give the same place when they say the same names, and only then is it the same path in another
spelling. What is shown of the places spells them. -/
theorem placed_of_load {home : Option String} {t : Tree} {start : Path} {s : Settings}
    (h : Settings.load home t start = .ok s) :
    (∀ m ∈ spellings s.template, ∃ names, names ≠ [] ∧ (∀ name ∈ names, IsName name) ∧
      m.2.components = names.map .name ∧
      ∀ root : Path, (root.join m.2).components = root.components ++ names.map .name ∧
        ∀ {u : Tree} {l : Location} {e : Entry}, u.Plain → u.find (root.join m.2) = .ok (l, e) →
          l = root.lexical ++ names) ∧
    (∀ {home' : Option String} {t' : Tree} {start' : Path} {s' : Settings},
      Settings.load home' t' start' = .ok s' →
      ∀ m ∈ spellings s.template, ∀ m' ∈ spellings s'.template,
        (m.2 = m'.2 ↔ (Path.ofString m.1).saidNames = (Path.ofString m'.1).saidNames) ∧
          (m.2.agrees m'.2 = true ↔ m.2 = m'.2)) ∧
    ofSettings (respelled s.template) = ofSettings s.template := by
  have hproblem := Settings.problem?_of_load h
  refine ⟨fun m hm => ?_, fun {home' t' start' s'} h' m hm m' hm' => ?_,
    ofSettings_respelled hproblem⟩
  · obtain ⟨hinside, hplace⟩ := of_mem_spellings hproblem hm
    obtain ⟨hne, hnames, hsaid⟩ := place_eq_ofNames hinside
    have hisName := fun s hs => (hnames s hs).1
    have hcomponents : m.2.components = (Path.ofString m.1).saidNames.map .name := by
      rw [hplace, hsaid, Path.components_ofNames hisName]
      rfl
    refine ⟨_, hne, hisName, hcomponents, fun root => ⟨?_, fun {u l e} hu hfind => ?_⟩⟩
    · rw [Path.components_join (Path.rooted_of_components hcomponents) (by simp [hcomponents]),
        hcomponents]
    · rw [(hu.find_eq_ok hfind).1, hplace, hsaid, Path.join_ofNames hne hisName,
        Path.lexical_descend hisName]
  · obtain ⟨hinside, hplace⟩ := of_mem_spellings hproblem hm
    obtain ⟨hinside', hplace'⟩ := of_mem_spellings (Settings.problem?_of_load h') hm'
    rw [hplace, hplace', place_eq_place_iff hinside hinside']
    refine ⟨Iff.rfl, ?_⟩
    obtain ⟨-, hnames, hsaid⟩ := place_eq_ofNames hinside
    obtain ⟨-, hnames', hsaid'⟩ := place_eq_ofNames hinside'
    rw [hsaid, hsaid']
    exact Path.agrees_ofNames_iff (fun s hs => (hnames s hs).1) (fun s hs => (hnames' s hs).1) false

private def spacedTree : Tree :=
  (∅ : Tree).put ["nsbrand.toml"]
    (.file "[template]\nentry_helper = './Helpers//main.php'\nloader_file = './ '\n".toUTF8)

private def spacedSettings : Settings :=
  { template := { entryHelper := "./Helpers//main.php", loaderFile := "./ " } }

/-- A place in the spelling of another project, and one whose name is a blank. -/
theorem placed_of_load_spaced :
    Settings.load none spacedTree (.ofString "/") = .ok spacedSettings ∧
      Settings.load none ∅ (.ofString "/") = .ok {} ∧
      (ofSettings spacedSettings.template).entryHelper = (ofSettings {}).entryHelper ∧
      (∃ names, names ≠ [] ∧
        ((Path.ofString "/src/").join (ofSettings spacedSettings.template).loaderFile).components =
          (Path.ofString "/src/").components ++ names.map .name) ∧
      ofSettings (respelled spacedSettings.template) = ofSettings spacedSettings.template ∧
      Settings.isInside (respelled spacedSettings.template).loaderFile = false := by
  have hspaced : Settings.load none spacedTree (.ofString "/") = .ok spacedSettings := by
    decide +kernel
  have hdefault : Settings.load none ∅ (.ofString "/") = .ok {} := by decide +kernel
  obtain ⟨hplaces, hsame, hrespelled⟩ := placed_of_load hspaced
  refine ⟨hspaced, hdefault, ?_, ?_, hrespelled, by decide +kernel⟩
  · exact (hsame hdefault _ List.mem_cons_self _ List.mem_cons_self).1.2 (by decide +kernel)
  · obtain ⟨names, hne, -, -, hroot⟩ :=
      hplaces ("./ ", (ofSettings spacedSettings.template).loaderFile)
        (by simp [spellings, spacedSettings])
    exact ⟨names, hne, (hroot _).1⟩

end Layout

end Branding
