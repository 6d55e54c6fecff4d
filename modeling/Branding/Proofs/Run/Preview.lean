import Branding.Proofs.Files.Clean
import Branding.Proofs.Files.Sources
import Branding.Proofs.Options
import Branding.Proofs.Run.Action
import Branding.Proofs.Run.Context
import Branding.Proofs.State
import Branding.Run.Command

/-!
# A preview changes nothing

Every piece of a run that writes looks for itself whether it is part of a preview. So each piece is
shown to keep the files where it is, and the pieces hand that on to the whole run, wherever it
stops. A preview shows what it would do and asks nothing.

## Main definitions

* `World.Shows` — nothing has become different but what was shown

## Main results

* `run_preview` — a command that is previewed keeps the files and asks nothing
-/

namespace Branding

/-! ### Files that are only read -/

namespace Files

theorem moves_clean_preview (p : Path) : Moves Eq (clean true p) := by
  refine Moves.bind Moves.get fun t => Moves.ite (fun _ => ?_) fun _ => Moves.pure _
  cases t.walk p with
  | error r => exact Moves.bind (moves_refuse p p r) fun _ => Moves.pure _
  | ok visits => exact Moves.bind (Moves.forM fun v _ => moves_enterAt p v) fun _ => Moves.pure _

theorem moves_brandFile_preview (brand : Brand) (role : FileRole) (file : Path) :
    Moves Eq (brandFile true brand role file) := by
  refine Moves.bind (moves_readText? file) fun text => ?_
  cases text with
  | none => exact Moves.pure false
  | some text => exact Moves.ite (fun _ => Moves.pure _) fun _ => Moves.pure _

theorem moves_brandSource_preview (layout : Layout) (brand : Brand) (root : Path)
    (names : List String) : Moves Eq (brandSource true layout brand root names) := by
  refine Moves.ite (fun _ => Moves.pure _) fun _ => ?_
  cases layout.role? (Path.ofNames false names) with
  | none => exact Moves.pure _
  | some role =>
    refine Moves.bind (moves_brandFile_preview brand role _) fun changed => ?_
    exact Moves.ite (fun _ => Moves.pure _) fun _ => Moves.pure _

theorem moves_brandSources_preview (layout : Layout) (brand : Brand) (root : Path) :
    Moves Eq (brandSources true layout brand root) := by
  refine Moves.bind Moves.get fun t => ?_
  cases t.walk root with
  | error r => exact Moves.adapt (Moves.adapt (Moves.throw _) _) _
  | ok visits =>
    refine Moves.bind (Moves.mapM fun v _ => ?_) fun _ => Moves.pure _
    exact moves_brandAt_of fun names _ => moves_brandSource_preview layout brand root names

theorem moves_placeLoader_preview (root relative : Path) (text : String) :
    Moves Eq (placeLoader true root relative text) := by
  have hend : ∀ changed : Bool, Moves Eq (if (changed && !true) = true then do
      let _ ← writeText (root.join relative) text
      return (⟨relative, changed, .loader⟩ : FileRecord)
    else return ⟨relative, changed, .loader⟩) := by
    intro changed
    rw [Bool.not_true, Bool.and_false]
    exact Moves.pure _
  refine Moves.bind Moves.get fun t => Moves.ite (fun _ => ?_) fun _ => ?_
  · exact Moves.bind (moves_readText? _) fun _ => Moves.bind (Moves.pure _) hend
  · exact Moves.bind (Moves.pure _) hend

theorem moves_generateLoader_preview (layout : Layout) (brand : Brand) (strategy : LoaderStrategy)
    (root : Path) : Moves Eq (generateLoader true layout brand strategy root) := by
  rw [generateLoader, if_neg (by simp)]
  exact Moves.bind (moves_placeLoader_preview root _ _) fun _ => Moves.pure _

theorem moves_brandLoaderFile_preview (layout : Layout) (brand : Brand) (root : Path) :
    Moves Eq (brandLoaderFile true layout brand root) := by
  refine Moves.bind Moves.get fun t => Moves.ite (fun _ => ?_) fun _ => Moves.pure _
  refine Moves.bind (moves_brandFile_preview brand .loader _) fun changed => ?_
  exact Moves.ite (fun _ => Moves.pure _) fun _ => Moves.pure _

end Files

theorem Build.moves_brandTree_preview (layout : Layout) (brand : Brand) (strategy : LoaderStrategy)
    (root : Path) : Moves Eq (brandTree true layout brand strategy root) :=
  Moves.bind (Moves.adapt (Files.moves_brandSources_preview layout brand root) _) fun _ =>
    Moves.bind (Moves.adapt (Files.moves_generateLoader_preview layout brand strategy root) _)
      fun _ => Moves.pure _

theorem Install.moves_brandTree_preview (layout : Layout) (brand : Brand) (root : Path) :
    Moves Eq (brandTree true layout brand root) :=
  Moves.bind (Moves.adapt (Files.moves_brandSources_preview layout brand root) _) fun _ =>
    Moves.bind (Moves.adapt (Files.moves_brandLoaderFile_preview layout brand root) _)
      fun _ => Moves.pure _

/-! ### Whole runs -/

/-- Nothing has become different but what was shown. -/
def World.Shows (w w' : World) : Prop :=
  w'.tree = w.tree ∧ w'.console.asked = w.console.asked ∧ w'.console.prompted = w.console.prompted

instance : Std.Refl World.Shows where
  refl _ := ⟨rfl, rfl, rfl⟩

instance : IsTrans World World.Shows where
  trans _ _ _ h h' := ⟨h'.1.trans h.1, h'.2.1.trans h.2.1, h'.2.2.trans h.2.2⟩

namespace Action

theorem shows_files {α : Type} {work : Files α} (h : Moves Eq work) :
    Moves World.Shows (files work) :=
  fun w => ⟨(h w.tree).symm, rfl, rfl⟩

theorem shows_ofAnswer {α : Type} (answer : Except Fault α) :
    Moves World.Shows (ofAnswer answer) := by
  cases answer with
  | ok a => exact Moves.pure a
  | error fault => exact Moves.throw fault

theorem shows_query {α : Type} (question : Tree → α) : Moves World.Shows (query question) :=
  fun _ => ⟨rfl, rfl, rfl⟩

theorem shows_write (lines : List Line) : Moves World.Shows (write lines) :=
  fun _ => ⟨rfl, rfl, rfl⟩

end Action

open Branding.Action in
theorem Build.shows_prepare_preview (template output : Path) (shownTemplate shownOutput : String) :
    Moves World.Shows (prepare true template output shownTemplate shownOutput) := by
  have hend : Moves World.Shows (do
      write [.comment s!"  Copying {shownTemplate}/ to {shownOutput}/..."]
      return template) :=
    Moves.bind (shows_write _) fun _ => Moves.pure _
  refine Moves.bind (shows_query _) fun found => Moves.ite (fun _ => ?_) fun _ => hend
  refine Moves.bind (shows_write _) fun _ => ?_
  refine Moves.bind (shows_files (Files.moves_clean_preview output)) fun removal => ?_
  exact Moves.ite (fun _ => Moves.bind (shows_write _) fun _ => hend) fun _ => hend

open Branding.Action in
theorem Build.shows_run_preview {c : RunContext} (h : c.isPreview = true) :
    Moves World.Shows (run c) := by
  unfold run
  rw [h]
  refine Moves.bind (shows_ofAnswer _) fun explicit => ?_
  refine Moves.bind (shows_files (State.moves_resolve explicit _)) fun resolution => ?_
  refine Moves.bind (shows_ofAnswer _) fun template => ?_
  refine Moves.bind (shows_ofAnswer _) fun output => ?_
  refine Moves.bind (shows_ofAnswer _) fun strategy => ?_
  refine Moves.bind (shows_query _) fun apart => ?_
  refine Moves.bind (shows_ofAnswer apart) fun _ => ?_
  refine Moves.bind (shows_write _) fun _ => ?_
  extract_lets built
  have hbuilt : ∀ u, Moves World.Shows (built u) := by
    intro u
    refine Moves.bind (shows_write _) fun _ => ?_
    refine Moves.bind (shows_prepare_preview _ _ _ _) fun root => ?_
    refine Moves.bind (shows_write _) fun _ => ?_
    refine Moves.bind (shows_files (moves_brandTree_preview _ _ _ root)) fun m => ?_
    refine Moves.bind (shows_write _) fun _ => ?_
    have hend : ∀ lines : List Line, Moves World.Shows (do
        write lines
        return m) :=
      fun lines => Moves.bind (shows_write lines) fun _ => Moves.pure m
    exact Moves.ite (fun _ => Moves.bind (shows_query _) fun _ =>
      Moves.bind (shows_write _) fun _ => hend _) fun _ => hend _
  exact Moves.ite (fun _ => Moves.bind (shows_write _) hbuilt) fun _ => hbuilt ()

open Branding.Action in
theorem Install.shows_proceed_preview {c : RunContext} (h : c.isPreview = true)
    (resolution : Resolution) (template : Path) (report : Report) :
    Moves World.Shows (proceed c resolution template report) := by
  unfold proceed
  rw [h]
  refine Moves.bind (shows_write _) fun _ => ?_
  refine Moves.bind (shows_files (moves_brandTree_preview _ _ template)) fun m => ?_
  exact Moves.bind (shows_write _) fun _ => Moves.bind (shows_write _) fun _ => Moves.pure _

open Branding.Action in
theorem Install.shows_run_preview {c : RunContext} (h : c.isPreview = true) :
    Moves World.Shows (run c) := by
  unfold run
  rw [h]
  refine Moves.bind (shows_ofAnswer _) fun explicit => ?_
  refine Moves.bind (shows_files (State.moves_resolve explicit _)) fun resolution => ?_
  refine Moves.bind (shows_ofAnswer _) fun template => ?_
  refine Moves.bind (shows_query _) fun found => ?_
  extract_lets report _ branded
  have hbranded : ∀ u, Moves World.Shows (branded u) := by
    intro u
    refine Moves.bind (shows_write _) fun _ =>
      Moves.ite (fun hasked => by simp at hasked) fun _ => ?_
    exact Moves.bind (shows_proceed_preview h resolution template report) fun _ => Moves.pure _
  exact Moves.ite (fun _ => Moves.bind (Moves.throw _) hbranded) fun _ => hbranded ()

namespace Command

theorem shows_context (s : Surroundings) (tokens : List String) :
    Moves World.Shows (context s tokens) :=
  Moves.bind (Action.shows_query _) fun answer => Action.shows_ofAnswer answer

theorem load_of_context {s : Surroundings} {tokens : List String} {w w' : World} {c : RunContext}
    (h : context s tokens w = (.ok c, w')) :
    RunContext.load s.home s.workingDir (.parse tokens) w.tree = .ok c ∧ w = w' := by
  obtain ⟨answer, w₁, hquery, hanswer⟩ := bind_eq_ok.1 h
  obtain ⟨rfl, rfl⟩ := Action.query_eq_ok.1 hquery
  exact Action.ofAnswer_eq_ok.1 hanswer

/-- The options of a run are those that its tokens give. -/
theorem options_of_context {s : Surroundings} {tokens : List String} {w w' : World} {c : RunContext}
    (h : context s tokens w = (.ok c, w')) : c.options = .parse tokens :=
  RunContext.options_of_load (load_of_context h).1

/-- What is run in the context that the tokens give. -/
theorem shows_of_context {α : Type} {s : Surroundings} {tokens : List String}
    {work : RunContext → Action α}
    (h : ∀ c, c.options = .parse tokens → Moves World.Shows (work c)) :
    Moves World.Shows (context s tokens >>= work) := by
  intro w
  have hfirst := shows_context s tokens w
  rw [bind_apply]
  cases hrun : context s tokens w with
  | mk result w₁ =>
    rw [hrun] at hfirst
    cases result with
    | ok c => exact IsTrans.trans _ _ _ hfirst (h c (options_of_context hrun) w₁)
    | error fault => exact hfirst

/-- A command with the key of a preview among its tokens, in any form, changes no file and asks
nothing, wherever it stops. -/
theorem run_preview (s : Surroundings) {word : String} (hword : word = "build" ∨ word = "install")
    {tokens : List String}
    (hdry : ∃ token ∈ tokens, token = "--dry-run" ∨ ∃ value, token = "--dry-run=" ++ value)
    (w : World) :
    (run s (word :: tokens) w).2.tree = w.tree ∧
      (run s (word :: tokens) w).2.console.asked = w.console.asked ∧
        (run s (word :: tokens) w).2.console.prompted = w.console.prompted := by
  have hhas : (Options.parse tokens).has "dry-run" = true :=
    Options.has_parse (by decide) (by decide) hdry
  have hpreview : ∀ c : RunContext, c.options = .parse tokens → c.isPreview = true := by
    rintro c hc
    rw [RunContext.isPreview, hc, hhas]
  rcases hword with rfl | rfl
  · exact shows_of_context (fun c hc => Moves.bind (Build.shows_run_preview (hpreview c hc))
      fun _ => Moves.pure ()) w
  · exact shows_of_context (fun c hc => Moves.bind (Install.shows_run_preview (hpreview c hc))
      fun _ => Moves.pure ()) w

/-- A small template, and a user who has typed a yes. -/
private def smallWorld : World := .typed "yes\n".toUTF8 <| .putAll ∅
  [(["src"], .directory), (["src", "App.php"], .file "<?php\nnamespace WPLite;\n".toUTF8)]

/-- The key may have a value, and come anywhere among the tokens. -/
theorem run_preview_install :
    ("install" = "build" ∨ "install" = "install") ∧
      (∃ token ∈ ["--prefix", "Acme", "--dry-run=no"],
        token = "--dry-run" ∨ ∃ value, token = "--dry-run=" ++ value) ∧
      (run ⟨.ofString "/", none⟩ ["install", "--prefix", "Acme", "--dry-run=no"]
        smallWorld).2.tree =
          smallWorld.tree ∧
        (run ⟨.ofString "/", none⟩ ["install", "--prefix", "Acme", "--dry-run=no"]
            smallWorld).2.console.asked = [] ∧
          (run ⟨.ofString "/", none⟩ ["install", "--prefix", "Acme", "--dry-run=no"]
            smallWorld).2.console.prompted = none := by
  have hdry : ∃ token ∈ ["--prefix", "Acme", "--dry-run=no"],
      token = "--dry-run" ∨ ∃ value, token = "--dry-run=" ++ value :=
    ⟨"--dry-run=no", by simp, Or.inr ⟨"no", rfl⟩⟩
  exact ⟨Or.inr rfl, hdry, run_preview ⟨.ofString "/", none⟩ (Or.inr rfl) hdry smallWorld⟩

end Command

end Branding
