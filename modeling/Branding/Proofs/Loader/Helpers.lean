import Branding.Proofs.Loader.Prefix
import Branding.Proofs.Loader.Required
import Branding.Proofs.Path.Place
import Branding.Proofs.Run.Build
import Mathlib.Data.List.DropRight

/-!
# Where a loader looks for the helpers

Both loaders end with the statement that includes the helper files, and in it the pattern of their
paths stands between quotes: a slash, the directory of the helpers, and every file in it with the
extension of a source. The directory is what the settings say, and the checks of the settings let
any name through.

The namespace is quoted before it is put into a text, and the directory is not. So the literal is
that of the directory where the directory has no quote in it, and no two backslashes that meet.
Otherwise a name such as `it's` closes the literal before its end, and the text behind it is no part
of the statement that was meant.

A backslash at the end of a name does no harm, since a slash always follows.

## Main definitions

* `helperFiles` — the pattern of the helper files in a directory
* `helpersClosing` — the text behind the literal

## Main results

* `exists_loaderText_eq` — the pattern in the text of a loader
* `readLiteral?_helperFiles_iff` — where the literal is that of the pattern
* `helpersLiteral_iff` — the loaders that settings give, after a build
* `helpersLiteral_ends_early` — settings whose loader does not look there
-/

namespace Branding

/-- The pattern of the helper files in a directory. -/
def helperFiles (names : List String) : List Char :=
  '/' :: ['/'].intercalate (names.map String.toList) ++ "/*.php".toList

/-- The text of a loader behind the literal with the pattern. -/
def helpersClosing : List Char :=
  unlines [") as $file) \x7b".toList, "    require_once $file;".toList, "\x7d".toList]

/-! ### Two characters that meet -/

section Meet

variable {c d : Char}

theorem pair_infix_append_cons_iff (h : d ≠ c) {u v : List Char} :
    [c, c] <:+: u ++ d :: v ↔ [c, c] <:+: u ∨ [c, c] <:+: v := by
  induction u with
  | nil => simp [List.infix_cons_iff, List.cons_prefix_cons, h.symm]
  | cons a u ih =>
    have hhead : [c] <+: u ++ d :: v ↔ [c] <+: u := by
      cases u <;> simp [List.cons_prefix_cons, h.symm]
    rw [List.cons_append, List.infix_cons_iff, List.infix_cons_iff, List.cons_prefix_cons,
      List.cons_prefix_cons, hhead, ih, or_assoc]

/-- They meet inside a part, since the separator stands between two of them. -/
theorem pair_infix_intercalate_iff (h : d ≠ c) {parts : List (List Char)} :
    [c, c] <:+: [d].intercalate parts ↔ ∃ part ∈ parts, [c, c] <:+: part := by
  induction parts with
  | nil => simp
  | cons part parts ih =>
    cases parts with
    | nil => simp
    | cons next parts =>
      rw [List.intercalate_cons_cons, List.append_assoc, List.singleton_append,
        pair_infix_append_cons_iff h, ih]
      exact (List.exists_mem_cons_iff _ _ _).symm

theorem mem_intercalate_iff (h : d ≠ c) {parts : List (List Char)} :
    c ∈ [d].intercalate parts ↔ ∃ part ∈ parts, c ∈ part := by
  constructor
  · exact fun hc => (mem_or_exists_of_mem_intercalate hc).resolve_left (by simpa using h.symm)
  · rintro ⟨part, hpart, hc⟩
    have hsub := intercalate_sublist (List.singleton_sublist.2 hpart) [d]
    rw [List.intercalate_singleton] at hsub
    exact hsub.subset hc

end Meet

/-! ### The pattern in the text -/

namespace LoaderFields

theorem trimSlashes_eq_self {text : List Char} (hfirst : text.head? ≠ some '/')
    (hlast : text.getLast? ≠ some '/') : trimSlashes text = text := by
  rw [trimSlashes, dropWhile_beq_of_head?_ne hfirst, dropWhile_beq_of_head?_ne,
    List.reverse_reverse]
  rwa [List.head?_reverse]

/-- Names with slashes between them have none at their ends. -/
theorem trimSlashes_intercalate {parts : List (List Char)}
    (h : ∀ part ∈ parts, part ≠ [] ∧ '/' ∉ part) :
    trimSlashes (['/'].intercalate parts) = ['/'].intercalate parts :=
  trimSlashes_eq_self (head?_intercalate_ne h) (getLast?_intercalate_ne h)

/-- The statement that includes the helpers, around its literal. -/
theorem unlines_helpersTemplate (f : LoaderFields) :
    unlines (helpersTemplate.map (·.fill f)) = "foreach (".toList ++ "glob(__DIR__ . '".toList ++
      (f.helpersPattern ++ '\'' :: helpersClosing) := by
  have hlead :
      "foreach (glob(__DIR__ . '".toList = "foreach (".toList ++ "glob(__DIR__ . '".toList := by
    decide +kernel
  have htail : "') as $file) \x7b".toList = '\'' :: ") as $file) \x7b".toList := by decide +kernel
  have hlines : helpersTemplate.map (·.fill f) =
      ["foreach (glob(__DIR__ . '".toList ++ f.helpersPattern ++ "') as $file) \x7b".toList,
        "    require_once $file;".toList, "\x7d".toList] := rfl
  rw [hlines, unlines_cons, hlead, htail, helpersClosing,
    unlines_cons ") as $file) \x7b".toList]
  generalize unlines ["    require_once $file;".toList, "\x7d".toList] = closing
  generalize "foreach (".toList = lead
  generalize "glob(__DIR__ . '".toList = call
  simp

/-- The statement ends a text, and what stands before it does not depend on the directory. -/
theorem exists_render_eq (target extension : List Char) (strategy : LoaderStrategy) :
    ∃ front, ∀ helpersDir, (LoaderFields.mk target helpersDir extension).render strategy =
      front ++ "glob(__DIR__ . '".toList ++
        ((LoaderFields.mk target helpersDir extension).helpersPattern ++
          '\'' :: helpersClosing) := by
  refine ⟨unlines (strategy.opening.map (·.fill ⟨target, [], extension⟩)) ++ "foreach (".toList,
    fun helpersDir => ?_⟩
  have hopening : strategy.opening.map (·.fill ⟨target, helpersDir, extension⟩) =
      strategy.opening.map (·.fill ⟨target, [], extension⟩) := by cases strategy <;> rfl
  rw [render, List.map_append, hopening, unlines_append, unlines_helpersTemplate]
  simp only [List.append_assoc]

end LoaderFields

/-! ### The literal of the pattern -/

/-- The literal is that of the pattern where no name has a quote in it, or two backslashes that
meet. -/
theorem readLiteral?_helperFiles_iff {names : List String} {rest : List Char} :
    readLiteral? (helperFiles names ++ '\'' :: rest) = some (helperFiles names, rest) ↔
      ¬(∃ s ∈ names, '\'' ∈ s.toList) ∧ ¬∃ s ∈ names, ['\\', '\\'] <:+: s.toList := by
  have hquote : '\'' ∈ helperFiles names ↔ ∃ s ∈ names, '\'' ∈ s.toList := by
    have htail : '\'' ∉ "/*.php".toList := by decide
    rw [helperFiles, List.cons_append, List.mem_cons, or_iff_right (by decide), List.mem_append,
      or_iff_left htail, mem_intercalate_iff (by decide)]
    simp only [List.mem_map, exists_exists_and_eq_and]
  have hpair : ['\\', '\\'] <:+: helperFiles names ↔ ∃ s ∈ names, ['\\', '\\'] <:+: s.toList := by
    have hnil : ¬['\\', '\\'] <:+: [] := by simp
    have htail : ¬['\\', '\\'] <:+: "*.php".toList := by decide
    have hslash : "/*.php".toList = '/' :: "*.php".toList := by decide
    rw [helperFiles, List.cons_append, ← List.nil_append ('/' :: _),
      pair_infix_append_cons_iff (by decide), or_iff_right hnil, hslash,
      pair_infix_append_cons_iff (by decide), or_iff_left htail,
      pair_infix_intercalate_iff (by decide)]
    simp only [List.mem_map, exists_exists_and_eq_and]
  have hlast : (helperFiles names).getLast? ≠ some '\\' := by
    rw [helperFiles, List.getLast?_append_of_ne_nil _ (by decide)]
    decide
  rw [readLiteral?_append_eq_some_iff, hquote, hpair, and_iff_left hlast]

/-! ### The directory that settings give -/

theorem Path.toList_display_ofNames {names : List String} (h : ∀ s ∈ names, IsName s) :
    (ofNames false names).display.toList = ['/'].intercalate (names.map String.toList) := by
  rw [display, components_ofNames h, String.toList_intercalate, if_neg (by decide), List.nil_append,
    List.map_map, List.map_map]
  rfl

/-- What names something inside a tree says nothing of the root or of the directory around it. -/
theorem Settings.eq_of_mem_components {value : String} (h : isInside value = true) {c : Component}
    (hc : c ∈ (Path.ofString value).components) : c = .here ∨ ∃ s, c = .name s := by
  rw [isInside, Bool.and_eq_true, Bool.and_eq_true] at h
  have hkind := List.all_eq_true.1 h.1.2 c hc
  cases c with
  | root | up => cases hkind
  | here => exact Or.inl rfl
  | name s => exact Or.inr ⟨s, rfl⟩

/-- A part of a setting that has a property is a name in it, where neither the empty text nor a dot
has the property. -/
theorem Settings.exists_part_iff {value : String} (h : isInside value = true) {names : List String}
    (hnames : (Path.ofString value).components.filter (· != .here) = names.map .name)
    {p : List Char → Prop} (hempty : ¬p []) (hdot : ¬p ['.']) :
    (∃ part ∈ value.toList.splitOn '/', p part) ↔ ∃ s ∈ names, p s.toList := by
  -- the setting is relative, so its segments are the parts of the text
  have hsegments : (Path.ofString value).segments = Path.split value.toList := by
    have hroot : .root ∉ (Path.ofString value).components :=
      fun hroot => by simpa using eq_of_mem_components h hroot
    unfold Path.ofString at hroot ⊢
    split
    next heq => rw [heq] at hroot; simp [Path.components] at hroot
    next => rfl
  have hmem : ∀ s, s ∈ names ↔ .name s ∈ (Path.ofString value).components := by
    intro s
    have hmap := List.mem_map_of_injective (f := Component.name) (fun _ _ => Component.name.inj)
      (a := s) (l := names)
    rw [← hmap, ← hnames, List.mem_filter]
    simp
  constructor
  · rintro ⟨part, hpart, hp⟩
    have hsegment : String.ofList part ∈ (Path.ofString value).segments :=
      hsegments ▸ List.mem_map_of_mem hpart
    have hpart : ∀ {text : String}, String.ofList part = text → p text.toList := by
      rintro _ rfl
      rwa [String.toList_ofList]
    have hname : IsName (String.ofList part) := by
      refine ⟨fun heq => hempty (hpart heq), fun heq => hdot (hpart heq), fun heq => ?_⟩
      have hup : .up ∈ (Path.ofString value).components :=
        Path.up_mem_components_iff.2 (heq ▸ hsegment)
      simpa using eq_of_mem_components h hup
    exact ⟨_, (hmem _).2 (List.mem_append_right _ (List.mem_filterMap.2
      ⟨_, hsegment, Component.ofSegment?_eq_name_iff.2 hname⟩)), by rwa [String.toList_ofList]⟩
  · rintro ⟨s, hs, hp⟩
    have hsegment := (Path.mem_segments_of_name_mem ((hmem s).1 hs)).1
    rw [hsegments] at hsegment
    obtain ⟨part, hpart, rfl⟩ := List.mem_map.1 hsegment
    exact ⟨part, hpart, by rwa [String.toList_ofList] at hp⟩

/-- The pattern in the text of a loader. What stands before it depends on the brand and the strategy
alone. -/
theorem exists_loaderText_eq (brand : Brand) (strategy : LoaderStrategy) :
    ∃ front, ∀ (layout : Layout) (names : List String),
      (∀ s ∈ names, IsName s ∧ '/' ∉ s.toList) → layout.helpersDir = .ofNames false names →
        (layout.loaderText brand strategy).toList =
          front ++ "glob(__DIR__ . '".toList ++ (helperFiles names ++ '\'' :: helpersClosing) := by
  obtain ⟨front, hfront⟩ :=
    LoaderFields.exists_render_eq brand.target sourceExtension.toList strategy
  refine ⟨front, fun layout names hnames hdir => ?_⟩
  have hdisplay :
      layout.helpersDir.display.toList = ['/'].intercalate (names.map String.toList) := by
    rw [hdir, Path.toList_display_ofNames fun s hs => (hnames s hs).1]
  have hparts : ∀ part ∈ names.map String.toList, part ≠ [] ∧ '/' ∉ part := by
    simp only [List.forall_mem_map]
    exact fun s hs => ⟨by simpa using (hnames s hs).1.1, (hnames s hs).2⟩
  have hpattern : (layout.loaderFields brand).helpersPattern = helperFiles names := by
    have htail : "/*.php".toList = "/*.".toList ++ sourceExtension.toList := by decide
    rw [helpersPattern_eq, Layout.loaderFields, hdisplay,
      LoaderFields.trimSlashes_intercalate hparts, helperFiles, htail, List.append_assoc]
  rw [Layout.loaderText, String.toList_ofList, ← hpattern]
  exact hfront _

/-- The settings that count name a directory of helpers, and a loader with its literal ends both
texts. It is well formed and denotes the pattern of the files in that directory exactly where the
setting has no quote in it and no two backslashes that meet. The text is what a build leaves in
the place of the loader. -/
theorem helpersLiteral_iff {home : Option String} {start : Path} {t : Tree} {s : Settings}
    (h : Settings.load home t start = .ok s) (brand : Brand) (strategy : LoaderStrategy) :
    ∃ names front, names ≠ [] ∧
      (Path.ofString s.template.helpersDir).components.filter (· != .here) = names.map .name ∧
      ((Layout.ofSettings s.template).loaderText brand strategy).toList =
        front ++ "glob(__DIR__ . '".toList ++ (helperFiles names ++ '\'' :: helpersClosing) ∧
      (readLiteral? (helperFiles names ++ '\'' :: helpersClosing) =
          some (helperFiles names, helpersClosing) ↔
        '\'' ∉ s.template.helpersDir.toList ∧
          ¬['\\', '\\'] <:+: s.template.helpersDir.toList) ∧
      ∀ {t₁ t₂ : Tree} {root : Path} {l : Location} {m : Manifest}, t₁.PlainAt root l →
        root.rooted = true →
        (∀ names, t₁.get? (l ++ names) ≠ none → (root.descend names).Admissible) →
        Build.brandTree false (.ofSettings s.template) brand strategy root t₁ = (.ok m, t₂) →
          t₂.get? (l ++ ((Layout.ofSettings s.template).generated strategy).lexical) =
            some (.file ((Layout.ofSettings s.template).loaderText brand strategy).toUTF8) := by
  have hproblem := Settings.problem?_of_load h
  have hinner := (Settings.problem?_eq_none_iff.1 hproblem).2
  simp only [Settings.inner, List.forall_mem_cons] at hinner
  obtain ⟨-, hinside, -⟩ := hinner
  obtain ⟨names, hne, hnames, hfilter, hplace⟩ := Layout.exists_place_eq hinside
  obtain ⟨front, hfront⟩ := exists_loaderText_eq brand strategy
  refine ⟨names, front, hne, hfilter, hfront _ names hnames hplace, ?_, ?_⟩
  · have hparts : ['/'].intercalate (s.template.helpersDir.toList.splitOn '/') =
        s.template.helpersDir.toList := List.intercalate_splitOn '/'
    have hquote : '\'' ∈ s.template.helpersDir.toList ↔ ∃ a ∈ names, '\'' ∈ a.toList := by
      rw [← hparts, mem_intercalate_iff (by decide)]
      exact Settings.exists_part_iff hinside hfilter (p := ('\'' ∈ ·)) (by simp) (by decide)
    have hpair : ['\\', '\\'] <:+: s.template.helpersDir.toList ↔
        ∃ a ∈ names, ['\\', '\\'] <:+: a.toList := by
      rw [← hparts, pair_infix_intercalate_iff (by decide)]
      exact Settings.exists_part_iff hinside hfilter (p := (['\\', '\\'] <:+: ·)) (by simp)
        (by decide)
    rw [readLiteral?_helperFiles_iff, hquote, hpair]
  · intro t₁ t₂ root l m hr hrooted hadm hbrand
    rw [(Build.brandTree_get? hr hrooted (Layout.isPlaced_ofSettings hproblem) hadm hbrand).1,
      Layout.built, if_pos rfl]

/-- A directory that is spelled with a dot and two slashes, and has backslashes in its names. -/
private def spelledTree : Tree :=
  (∅ : Tree).put ["nsbrand.toml"] (.file "[template]\nhelpers_dir = './a\\b//c\\'\n".toUTF8)

private def spelledSettings : Settings := { template := { helpersDir := "./a\\b//c\\" } }

private def emptyOutput : Tree := (∅ : Tree).put ["core"] .directory

theorem helpersLiteral_iff_spelled :
    Settings.load none spelledTree (.ofString "/") = .ok spelledSettings ∧
      (∃ front, ((Layout.ofSettings spelledSettings.template).loaderText ⟨"Acme", by decide⟩
          .external).toList =
        front ++ "glob(__DIR__ . '".toList ++
          ("/a\\b/c\\/*.php".toList ++ '\'' :: helpersClosing)) ∧
      readLiteral? ("/a\\b/c\\/*.php".toList ++ '\'' :: helpersClosing) =
        some ("/a\\b/c\\/*.php".toList, helpersClosing) ∧
      ∃ m t, Build.brandTree false (.ofSettings spelledSettings.template) ⟨"Acme", by decide⟩
          .external (.ofString "/core") emptyOutput = (.ok m, t) ∧
        t.get? ["core", "helpers.php"] =
          some (.file ((Layout.ofSettings spelledSettings.template).loaderText ⟨"Acme", by decide⟩
            .external).toUTF8) := by
  have hload : Settings.load none spelledTree (.ofString "/") = .ok spelledSettings := by
    decide +kernel
  obtain ⟨names, front, -, hfilter, htext, hliteral, hbuilt⟩ :=
    helpersLiteral_iff hload ⟨"Acme", by decide⟩ .external
  have hnames : names = ["a\\b", "c\\"] := by
    refine List.map_injective_iff.2 (fun _ _ => Component.name.inj) (hfilter.symm.trans ?_)
    decide +kernel
  have hfiles : helperFiles names = "/a\\b/c\\/*.php".toList := by
    rw [hnames]
    decide +kernel
  rw [hfiles] at htext hliteral
  obtain ⟨m, t, hrun⟩ := exists_of_isOk (x := Build.brandTree false
    (.ofSettings spelledSettings.template) ⟨"Acme", by decide⟩ .external (.ofString "/core"))
    (s := emptyOutput) (by decide +kernel)
  have hplain : emptyOutput.Plain := Tree.Plain.put Tree.plain_empty (by simp) (by decide)
  have hroot : emptyOutput.PlainAt (.ofString "/core") ["core"] :=
    hplain.plainAt (by decide +kernel)
  have hadm : ∀ names, emptyOutput.get? (["core"] ++ names) ≠ none →
      ((Path.ofString "/core").descend names).Admissible := by
    intro names hne
    by_cases hnames : names = []
    · subst hnames
      exact (hplain.find_eq_ok hroot.found).2.2
    · refine absurd ?_ hne
      rw [emptyOutput, Tree.get?_put_of_ne _ (by simpa using hnames), Tree.get?_empty (by simp)]
  exact ⟨hload, ⟨front, htext⟩, hliteral.2 (by decide +kernel), m, t, hrun,
    hbuilt hroot (by decide) hadm hrun⟩

/-! ### A directory with a quote in its name -/

private def quotedTree : Tree :=
  (∅ : Tree).put ["nsbrand.toml"] (.file "[template]\nhelpers_dir = \"it's\"\n".toUTF8)

private def quotedSettings : Settings := { template := { helpersDir := "it's" } }

/-- The checks let it through, and the literal ends inside the name. -/
theorem helpersLiteral_ends_early :
    Settings.load none quotedTree (.ofString "/") = .ok quotedSettings ∧
      (∃ front, ((Layout.ofSettings quotedSettings.template).loaderText ⟨"Acme", by decide⟩
          .selfContained).toList =
        front ++ "glob(__DIR__ . '".toList ++ ("/it's/*.php".toList ++ '\'' :: helpersClosing)) ∧
      readLiteral? ("/it's/*.php".toList ++ '\'' :: helpersClosing) =
        some ("/it".toList, "s/*.php".toList ++ '\'' :: helpersClosing) := by
  refine ⟨by decide +kernel, ?_, by decide +kernel⟩
  obtain ⟨front, hfront⟩ := exists_loaderText_eq ⟨"Acme", by decide⟩ .selfContained
  have hfiles : helperFiles ["it's"] = "/it's/*.php".toList := by decide +kernel
  rw [← hfiles]
  exact ⟨front, hfront _ ["it's"] (by decide) (by decide +kernel)⟩

end Branding
