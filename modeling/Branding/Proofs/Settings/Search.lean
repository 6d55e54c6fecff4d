import Branding.Proofs.Path.Parent
import Branding.Proofs.Tree.Edits
import Branding.Settings.Load
import Mathlib.Logic.Relation

/-!
# Which settings file counts

The search for the settings file goes from a directory outward, and each directory it comes to can
end it in two ways: the directory has the file, or it is the root of a repository. The file is asked
for first, so a repository may have its settings at its root, and what is around the repository is
never looked at.

The search comes to a directory where no nearer one ends it. So the file that counts is that of the
one directory the search comes to and that has it, and what the settings are depends on the
directories the search comes to and on no others.

## Main definitions

* `Settings.SearchesOn` — one round of the search
* `Settings.ComesTo` — no nearer directory ends the search
* `Settings.SameIn` — two trees have the same to say about a directory
* `Settings.checked` — settings with the home directory put in, if they pass the checks

## Main results

* `Settings.wellFounded_searchesOn` — the search ends
* `Settings.comesTo_iff` — the rounds of the search come to the directories that no nearer one hides
* `Settings.fileAmong?_eq_some_iff`, `Settings.fileAmong?_congr` — the file, and what it depends on
* `Settings.load_nearest` — the settings that count, and what they depend on
-/

namespace Branding

namespace Settings

/-- A directory that the search passes: it has no settings file and no repository has its root
there. -/
def IsPassed (t : Tree) (d : Path) : Prop :=
  t.isFile (d.child fileName) = false ∧ t.isDirectory (d.child repositoryMark) = false

instance (t : Tree) (d : Path) : Decidable (IsPassed t d) := inferInstanceAs (Decidable (_ ∧ _))

/-- One round of the search. -/
def SearchesOn (t : Tree) (d d' : Path) : Prop := IsPassed t d ∧ d.parent? = some d'

/-- Of a directory and those around it, the search passes all that are nearer than this one. -/
def ComesTo (t : Tree) (start d : Path) : Prop :=
  ∃ nearer farther, start :: start.enclosing = nearer ++ d :: farther ∧ ∀ n ∈ nearer, IsPassed t n

/-- Two trees have the same to say about a directory: it has a settings file in both or in neither,
with the same content, and is the root of a repository in both or in neither. -/
structure SameIn (t t' : Tree) (d : Path) : Prop where
  file : (t.readBytes (d.child fileName)).toOption = (t'.readBytes (d.child fileName)).toOption
  mark : t.isDirectory (d.child repositoryMark) = t'.isDirectory (d.child repositoryMark)

/-- Settings with the home directory put in, if they pass the checks. -/
def checked (home : Option String) (s : Settings) : Except Fault Settings :=
  match (s.expandHome home).problem? with
  | some problem => .error ((Fault.of (.settings problem)).during .checkingSettings)
  | none => .ok (s.expandHome home)

variable {t t' : Tree} {start d d' file : Path} {nearer outer : List Path}

/-! ### The rounds of the search -/

/-- The search ends. -/
theorem wellFounded_searchesOn (t : Tree) : WellFounded fun d' d => SearchesOn t d d' :=
  Subrelation.wf And.right Path.wellFounded_parent?

/-- The rounds of the search come to the directories that no nearer one hides. -/
theorem comesTo_iff : ComesTo t start d ↔ Relation.ReflTransGen (SearchesOn t) start d := by
  constructor
  · rintro ⟨nearer, farther, hchain, hpassed⟩
    induction nearer generalizing start with
    | nil =>
      obtain ⟨rfl, -⟩ := List.cons.inj hchain
      exact .refl
    | cons n nearer ih =>
      rw [List.forall_mem_cons] at hpassed
      obtain ⟨rfl, henclosing⟩ := List.cons.inj hchain
      cases hparent : start.parent? with
      | none =>
        rw [Path.enclosing_of_parent?_eq_none hparent] at henclosing
        simp at henclosing
      | some q =>
        rw [Path.enclosing_of_parent? hparent] at henclosing
        exact .head ⟨hpassed.1, hparent⟩ (ih henclosing hpassed.2)
  · intro hrun
    induction hrun using Relation.ReflTransGen.head_induction_on with
    | refl => exact ⟨[], d.enclosing, rfl, List.forall_mem_nil _⟩
    | @head start q hstep _ ih =>
      obtain ⟨nearer, farther, hchain, hpassed⟩ := ih
      refine ⟨start :: nearer, farther, ?_, List.forall_mem_cons.2 ⟨hstep.1, hpassed⟩⟩
      rw [Path.enclosing_of_parent? hstep.2, hchain, List.cons_append]

/-! ### The file that counts -/

theorem fileAmong?_cons_of_isPassed (h : IsPassed t d) (outer : List Path) :
    fileAmong? t (d :: outer) = fileAmong? t outer := by
  rw [fileAmong?, if_neg (by simp [h.1]), if_neg (by simp [h.2])]

theorem fileAmong?_append (h : ∀ n ∈ nearer, IsPassed t n) (outer : List Path) :
    fileAmong? t (nearer ++ outer) = fileAmong? t outer := by
  induction nearer with
  | nil => rfl
  | cons n nearer ih =>
    rw [List.forall_mem_cons] at h
    rw [List.cons_append, fileAmong?_cons_of_isPassed h.1, ih h.2]

/-- The file is that of the nearest directory that has it, if the search comes there. -/
theorem fileAmong?_eq_some_iff {dirs : List Path} : fileAmong? t dirs = some file ↔
    ∃ nearer d farther, dirs = nearer ++ d :: farther ∧ (∀ n ∈ nearer, IsPassed t n) ∧
      t.isFile (d.child fileName) = true ∧ d.child fileName = file := by
  constructor
  · intro h
    induction dirs with
    | nil => cases h
    | cons d outer ih =>
      by_cases hfile : t.isFile (d.child fileName) = true
      · rw [fileAmong?, if_pos hfile] at h
        exact ⟨[], d, outer, rfl, List.forall_mem_nil _, hfile, Option.some.inj h⟩
      by_cases hmark : t.isDirectory (d.child repositoryMark) = true
      · rw [fileAmong?, if_neg hfile, if_pos hmark] at h
        cases h
      have hpassed : IsPassed t d := ⟨by simpa using hfile, by simpa using hmark⟩
      rw [fileAmong?_cons_of_isPassed hpassed] at h
      obtain ⟨nearer, d', farther, rfl, hnearer, hd'⟩ := ih h
      exact ⟨d :: nearer, d', farther, rfl, List.forall_mem_cons.2 ⟨hpassed, hnearer⟩, hd'⟩
  · rintro ⟨nearer, d, farther, rfl, hnearer, hfile, rfl⟩
    rw [fileAmong?_append hnearer, fileAmong?, if_pos hfile]

/-! ### What the search depends on -/

theorem isFile_eq_isSome (t : Tree) (p : Path) :
    t.isFile p = (t.readBytes p).toOption.isSome := by
  rw [Tree.isFile, Tree.readBytes]
  rcases t.find p with r | ⟨l, _ | bytes | target⟩ <;> rfl

namespace SameIn

theorem isFile_eq (h : SameIn t t' d) :
    t.isFile (d.child fileName) = t'.isFile (d.child fileName) := by
  rw [isFile_eq_isSome, isFile_eq_isSome, h.file]

theorem isPassed_iff (h : SameIn t t' d) : IsPassed t d ↔ IsPassed t' d := by
  rw [IsPassed, IsPassed, h.isFile_eq, h.mark]

/-- Where there is a settings file, both trees have the same to read. -/
theorem read_eq (h : SameIn t t' d) (hfile : t.isFile (d.child fileName) = true) :
    read t (d.child fileName) = read t' (d.child fileName) := by
  have hbytes := h.file
  rw [isFile_eq_isSome, hbytes] at hfile
  have hread : t.readBytes (d.child fileName) = t'.readBytes (d.child fileName) := by
    revert hbytes hfile
    cases t.readBytes (d.child fileName) <;> cases t'.readBytes (d.child fileName) <;>
      simp [Except.toOption]
  rw [read, read, Tree.readText, Tree.readText, hread]

end SameIn

/-- Two trees that have the same to say about the directories the search comes to have the same
file. -/
theorem fileAmong?_congr {dirs : List Path}
    (h : ∀ nearer d farther, dirs = nearer ++ d :: farther → (∀ n ∈ nearer, IsPassed t n) →
      SameIn t t' d) : fileAmong? t dirs = fileAmong? t' dirs := by
  induction dirs with
  | nil => rfl
  | cons d outer ih =>
    have hhere : SameIn t t' d := h [] d outer rfl (List.forall_mem_nil _)
    by_cases hpassed : IsPassed t d
    · rw [fileAmong?_cons_of_isPassed hpassed,
        fileAmong?_cons_of_isPassed (hhere.isPassed_iff.1 hpassed)]
      refine ih fun nearer d' farther hdirs hnearer => ?_
      exact h (d :: nearer) d' farther (by rw [hdirs]; rfl)
        (List.forall_mem_cons.2 ⟨hpassed, hnearer⟩)
    by_cases hfile : t'.isFile (d.child fileName) = true
    · rw [fileAmong?, fileAmong?, hhere.isFile_eq, if_pos hfile, if_pos hfile]
    by_cases hmark : t'.isDirectory (d.child repositoryMark) = true
    · rw [fileAmong?, fileAmong?, hhere.isFile_eq, hhere.mark, if_neg hfile, if_neg hfile,
        if_pos hmark, if_pos hmark]
    · exact absurd (hhere.isPassed_iff.2 ⟨by simpa using hfile, by simpa using hmark⟩) hpassed

/-! ### The settings that count -/

theorem load_eq (home : Option String) (t : Tree) (start : Path) :
    load home t start =
      ((fileFrom? t start).elim (.ok {}) (read t)).bind (checked home) := by
  unfold load
  cases fileFrom? t start <;> rfl

/-- The defaults say nothing of a home directory, and pass the checks. -/
theorem checked_default (home : Option String) : checked home {} = .ok {} := by
  have hsame : expandHome home {} = {} := by cases home <;> rfl
  have hproblem : problem? {} = none := by decide +kernel
  rw [checked, hsame, hproblem]

/-- The search for the settings of a directory ends. Where it comes to a directory that has the
settings file, which there is one of at most, these are the settings that are read and checked, and
elsewhere the defaults count. Other trees have the same settings if they have the same to say about
the directories that the search comes to. These are among the directory and what is around it, and
there the locations above it follow one after another, up to the root. -/
theorem load_nearest {start : Path} (hstart : start.rooted = true) (home : Option String)
    (t : Tree) :
    (WellFounded fun d' d => SearchesOn t d d') ∧
    (∀ d, ComesTo t start d ↔ Relation.ReflTransGen (SearchesOn t) start d) ∧
    (".." ∉ start.segments →
      (start :: start.enclosing).map Path.lexical = start.lexical.inits.reverse) ∧
    (∀ d, ComesTo t start d → t.isFile (d.child fileName) = true →
      load home t start = (read t (d.child fileName)).bind (checked home)) ∧
    ((∀ d, ComesTo t start d → t.isFile (d.child fileName) = false) →
      load home t start = .ok {}) ∧
    ∀ t', (∀ d, ComesTo t start d → SameIn t t' d) → load home t' start = load home t start := by
  refine ⟨wellFounded_searchesOn t, fun d => comesTo_iff, Path.map_lexical_enclosing hstart,
    ?_, ?_, ?_⟩
  · rintro d ⟨nearer, farther, hchain, hnearer⟩ hfile
    have hcounts : fileFrom? t start = some (d.child fileName) :=
      fileAmong?_eq_some_iff.2 ⟨nearer, d, farther, hchain, hnearer, hfile, rfl⟩
    rw [load_eq, hcounts]
    rfl
  · intro hnone
    have hcounts : fileFrom? t start = none := by
      rw [Option.eq_none_iff_forall_ne_some]
      intro file hfound
      obtain ⟨nearer, d, farther, hchain, hnearer, hfile, -⟩ := fileAmong?_eq_some_iff.1 hfound
      rw [hnone d ⟨nearer, farther, hchain, hnearer⟩] at hfile
      cases hfile
    rw [load_eq, hcounts]
    exact checked_default home
  · intro t' hsame
    have hcounts : fileFrom? t start = fileFrom? t' start :=
      fileAmong?_congr fun nearer d farther hchain hnearer =>
        hsame d ⟨nearer, farther, hchain, hnearer⟩
    rw [load_eq, load_eq, ← hcounts]
    cases hfound : fileFrom? t start with
    | none => rfl
    | some file =>
      obtain ⟨nearer, d, farther, hchain, hnearer, hfile, rfl⟩ := fileAmong?_eq_some_iff.1 hfound
      have hd := hsame d ⟨nearer, farther, hchain, hnearer⟩
      rw [Option.elim_some, Option.elim_some, hd.read_eq hfile]

/-- A repository with settings of its own at its root, alone in the tree. -/
private def repositoryTree : Tree := .putAll ∅
  [(["repo"], .directory), (["repo", ".git"], .directory),
    (["repo", "nsbrand.toml"], .file "[build]\noutput = \"lib\"\n".toUTF8),
    (["repo", "pkg"], .directory)]

/-- The same repository in a directory whose settings cannot be read. -/
private def enclosedTree : Tree :=
  repositoryTree.put ["nsbrand.toml"] (.file "[build\n".toUTF8)

theorem load_nearest_repository :
    load none enclosedTree (.ofString "/repo/pkg") = .ok { build := { output := "lib" } } ∧
      load none repositoryTree (.ofString "/repo/pkg") =
        load none enclosedTree (.ofString "/repo/pkg") := by
  have hstart : (Path.ofString "/repo/pkg").rooted = true := by decide
  obtain ⟨-, hrounds, -, hload, -, hsame⟩ := load_nearest hstart none enclosedTree
  have hparent : (Path.ofString "/repo/pkg").parent? = some (.ofString "/repo") := by decide +kernel
  constructor
  · rw [hload (.ofString "/repo") ⟨[.ofString "/repo/pkg"], [.start true], by decide +kernel,
      by decide +kernel⟩ (by decide +kernel)]
    decide +kernel
  · refine hsame repositoryTree fun d hd => ?_
    rcases ((hrounds d).1 hd).cases_head with rfl | ⟨q, ⟨-, hq⟩, hrest⟩
    · exact ⟨by decide +kernel, by decide +kernel⟩
    rw [hparent] at hq
    cases hq
    rcases hrest.cases_head with rfl | ⟨q, ⟨hpassed, -⟩, -⟩
    · exact ⟨by decide +kernel, by decide +kernel⟩
    · exact absurd hpassed (by decide +kernel)

end Settings

end Branding
