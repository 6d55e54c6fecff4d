import Branding.Proofs.Path.Place
import Branding.Run.Context

/-!
# The context of a run

The context is all that a run is told before it acts. What the rest relies on is known once it is
there: the layout consists of places, and a path that the user writes is rooted where the working
directory is.

The settings are read for every run anew, and from the files alone. So runs in the same files that
differ in their options have contexts that differ in their options.

## Main definitions

* `RunContext.inRoot` — the context of a run in the root directory, by its settings and its tokens

## Main results

* `RunContext.load_eq_ok` — when a run has a context, and which
* `RunContext.of_load` — the layout of a run consists of places
* `RunContext.eq_of_load` — other options make a difference by themselves only
-/

namespace Branding

namespace RunContext

section Load

variable {home : Option String} {workingDir : Path} {options options' : Options} {t : Tree}
  {c c' : RunContext}

/-- A run has a context where the settings that count can be read. -/
theorem load_eq_ok : load home workingDir options t = .ok c ↔
    ∃ settings, Settings.load home t workingDir = .ok settings ∧
      c = ⟨workingDir, settings, options, .ofSettings settings.template⟩ := by
  unfold load
  cases Settings.load home t workingDir with
  | error fault => simp
  | ok settings => simp [eq_comm]

/-- The layout of a run consists of places. -/
theorem of_load (h : load home workingDir options t = .ok c) :
    c.workingDir = workingDir ∧ c.layout.IsPlaced := by
  obtain ⟨settings, hsettings, rfl⟩ := load_eq_ok.1 h
  exact ⟨rfl, Layout.isPlaced_ofSettings (Settings.problem?_of_load hsettings)⟩

theorem options_of_load (h : load home workingDir options t = .ok c) : c.options = options := by
  obtain ⟨settings, -, rfl⟩ := load_eq_ok.1 h
  rfl

/-- Other options make a difference to a run by themselves only. -/
theorem eq_of_load (h : load home workingDir options t = .ok c)
    (h' : load home workingDir options' t = .ok c') :
    c.options = options ∧ c' = { c with options := options' } := by
  obtain ⟨settings, hsettings, rfl⟩ := load_eq_ok.1 h
  obtain ⟨settings', hsettings', rfl⟩ := load_eq_ok.1 h'
  obtain rfl := Except.ok.inj (hsettings.symm.trans hsettings')
  exact ⟨rfl, rfl⟩

end Load

/-- A path as the user writes it is rooted where the working directory is. -/
theorem rooted_resolve {c : RunContext} (h : c.workingDir.rooted = true) (raw : String) :
    (c.resolve raw).rooted = true := by
  rw [resolve, Path.join]
  split
  next hraw => exact hraw
  next => split <;> exact h

/-- A directory of a run is followed from the working directory, be it given by an option or by a
setting. -/
theorem exists_resolve_of_wordOf? {c : RunContext} {key setting : String} {p : Path}
    (h : (do return c.resolve ((← c.wordOf? key).getD setting) : Except Fault Path) = .ok p) :
    ∃ raw, c.resolve raw = p := by
  cases hword : c.wordOf? key with
  | error fault => rw [hword] at h; cases h
  | ok word =>
    rw [hword] at h
    exact ⟨_, Except.ok.inj h⟩

theorem rooted_outputDir {c : RunContext} (h : c.workingDir.rooted = true) {output : Path}
    (houtput : c.outputDir = .ok output) : output.rooted = true := by
  obtain ⟨raw, rfl⟩ := exists_resolve_of_wordOf? houtput
  exact rooted_resolve h raw

/-! ### Runs in the root directory -/

/-- The context of a run in the root directory, by its settings and its tokens. -/
def inRoot (settings : Settings) (tokens : List String) : RunContext where
  workingDir := .ofString "/"
  settings := settings
  options := .parse tokens
  layout := .ofSettings settings.template

theorem load_inRoot {settings : Settings} {t : Tree}
    (h : Settings.load none t (.ofString "/") = .ok settings) (tokens : List String) :
    load none (.ofString "/") (.parse tokens) t = .ok (inRoot settings tokens) :=
  load_eq_ok.2 ⟨settings, h, rfl⟩

end RunContext

end Branding
