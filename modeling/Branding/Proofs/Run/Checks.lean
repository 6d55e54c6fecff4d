import Branding.Proofs.Files.Faults
import Branding.Proofs.Path.ByteOrder
import Branding.Proofs.Run.Preview
import Branding.Proofs.Run.Untouched

/-!
# What a run finds out before it writes

A run that cannot do what it is asked for should stop before it has changed anything. Branding in
place keeps to that: the brand is remembered only when everything has been checked and the user has
agreed, and from then on all that can go wrong is met while files are worked on. So a fault of the
request, and a user who does not say yes, leave every file as it was.

What the user types is bytes. A first line of them that is the UTF-8 form of a text and not a yes
is a refusal, and ends the run without a fault. A first line that is no text is not an answer at
all, and the run fails where it reads it.

A build remembers the brand as soon as it is known, and looks at its paths and its other options
afterwards. There a fault of the request leaves the brand remembered, and nothing else.

## Main definitions

* `Files.ChecksFirst` — a fault of the request comes before anything is written
* `Install.goOn` — what is left of branding in place when everything has been checked

## Main results

* `firstLine?_toUTF8` — a user who types text is read
* `Install.run_cases` — branding in place stops at a check, or goes on from the files it was given
* `Install.run_unforced` — what was asked for in vain, and what was not agreed to, leaves the files
  alone
* `Build.run_request_fault` — what a build that stops at a check has written
-/

namespace Branding

/-! ### The first line of what was typed -/

/-- A line feed is one byte, which no other character has in it. -/
theorem mem_utf8EncodeChar_iff (c : Char) : 0x0A ∈ String.utf8EncodeChar c ↔ c = '\n' := by
  constructor
  · intro h
    refine Char.ext (UInt32.toNat_inj.1 ?_)
    show c.val.toNat = 10
    have hc := toNat_val_lt c
    unfold String.utf8EncodeChar at h
    generalize c.val.toNat = v at h hc
    simp only at h
    split_ifs at h <;>
      simp (disch := omega) only [List.mem_cons, List.not_mem_nil, or_false, ← UInt8.toNat_inj,
        UInt8.toNat_ofNat', UInt8.reduceToNat, Nat.mod_eq_of_lt] at h <;>
      omega
  · rintro rfl
    decide

/-- The bytes before the first line feed are those of the characters before it. -/
theorem takeWhile_flatMap_utf8EncodeChar (cs : List Char) :
    (cs.flatMap String.utf8EncodeChar).takeWhile (· != 0x0A) =
      (cs.takeWhile (· != '\n')).flatMap String.utf8EncodeChar := by
  induction cs with
  | nil => rfl
  | cons c cs ih =>
    by_cases hc : c = '\n'
    · subst hc
      rfl
    · have hbytes : ∀ b ∈ String.utf8EncodeChar c, (b != 0x0A) = true := by
        intro b hb
        refine bne_iff_ne.2 fun hfeed => hc ((mem_utf8EncodeChar_iff c).1 ?_)
        rwa [← hfeed]
      rw [List.flatMap_cons, List.takeWhile_append_of_pos hbytes, ih,
        List.takeWhile_cons, if_pos (bne_iff_ne.2 hc), List.flatMap_cons]

/-- Of a text that was typed the first line is what stands before its first line feed. -/
theorem firstLine?_toUTF8 (s : String) :
    firstLine? s.toUTF8 = some (.ofList (s.toList.takeWhile (· != '\n'))) := by
  refine fromUTF8?_eq_some_iff.2 ?_
  show List.toByteArray ((textBytes s).takeWhile _) = (String.ofList _).toByteArray
  rw [textBytes_eq, takeWhile_flatMap_utf8EncodeChar, String.toByteArray_ofList, List.utf8Encode]

/-- What was typed is the answer, if its first line can be read. -/
theorem Console.ask_typed {c : Console} {input : ByteArray} (h : c.reply = .typed input)
    (question : String) :
    (c.ask question).2.asked = c.asked ++ [question] ∧
      (∀ line, firstLine? input = some line → (c.ask question).1 = .ok (saysYes line)) ∧
      (firstLine? input = none → (c.ask question).1 = .error .notText) := by
  rw [Console.ask, h]
  refine ⟨rfl, fun line hline => ?_, fun hline => ?_⟩
  · simp only [hline]
  · simp only [hline]

/-! ### Faults of the request -/

namespace Files

variable {α β : Type}

/-- A fault of the request comes before anything is written. -/
def ChecksFirst (work : Files α) : Prop :=
  ∀ t fault t', work t = (.error fault, t') → fault.cause.isOfRequest = true → t' = t

theorem ChecksFirst.of_fails {work : Files α} (h : FailsWith Fault.IsOfWork work) :
    ChecksFirst work := by
  intro t fault t' hrun hrequest
  have hfiles : fault.cause.isOfRequest = false := h t fault t' hrun
  rw [hfiles] at hrequest
  cases hrequest

theorem ChecksFirst.of_moves {work : Files α} (h : Moves Eq work) : ChecksFirst work := by
  intro t fault t' hrun _
  have hsame := h t
  rw [hrun] at hsame
  exact hsame.symm

/-- What only looks may come first. -/
theorem ChecksFirst.bind {x : Files α} {f : α → Files β} (hx : Moves Eq x)
    (hf : ∀ a, ChecksFirst (f a)) : ChecksFirst (x >>= f) := by
  intro t fault t' hrun hrequest
  obtain hfirst | ⟨a, t₁, hfirst, hrest⟩ := bind_eq_error.1 hrun
  · exact ChecksFirst.of_moves hx t fault t' hfirst hrequest
  · obtain rfl : t = t₁ := hx.of_eq_ok hfirst
    exact hf a t fault t' hrest hrequest

theorem moves_ofResult (answer : Except Fault α) : Moves Eq (ofResult answer) := by
  cases answer with
  | ok a => exact Moves.pure a
  | error fault => exact Moves.throw fault

end Files

namespace Action

theorem fails_files {α : Type} {work : Files α} (h : FailsWith Fault.IsOfWork work) :
    FailsWith Fault.IsOfWork (files work) := by
  intro w fault w' hrun
  obtain ⟨hresult, -⟩ := Prod.mk.inj hrun
  exact h w.tree fault (work w.tree).2 (Prod.ext hresult rfl)

theorem fails_write (lines : List Line) : FailsWith Fault.IsOfWork (write lines) :=
  .modify _

theorem ask_eq (question : String) (w : World) :
    ask question w =
      ((w.console.ask question).1.mapError fun r =>
          (Fault.of (.refused r)).during .readingAnswer,
        { w with console := (w.console.ask question).2 }) := rfl

theorem fails_ask (question : String) : FailsWith Fault.IsOfWork (ask question) := by
  intro w fault w' hrun
  obtain ⟨hanswer, -⟩ := Prod.mk.inj ((ask_eq question w).symm.trans hrun)
  cases hask : (w.console.ask question).1 with
  | ok yes => rw [hask] at hanswer; cases hanswer
  | error r => rw [hask] at hanswer; cases hanswer; rfl

end Action

/-- A command without a context stops at once. -/
theorem Command.context_bind_cases {α : Type} (s : Surroundings) (tokens : List String)
    (work : RunContext → Action α) (w : World) :
    (∃ fault, (context s tokens >>= work) w = (.error fault, w)) ∨
      ∃ c, RunContext.load s.home s.workingDir (.parse tokens) w.tree = .ok c ∧
        (context s tokens >>= work) w = work c w := by
  have hcontext : context s tokens w =
      Action.ofAnswer (RunContext.load s.home s.workingDir (.parse tokens) w.tree) w := rfl
  rw [bind_apply, hcontext]
  cases RunContext.load s.home s.workingDir (.parse tokens) w.tree with
  | error fault => exact Or.inl ⟨fault, rfl⟩
  | ok c => exact Or.inr ⟨c, rfl, rfl⟩

namespace Install

/-! ### Branding in place -/

theorem fails_agreed (source : String) : FailsWith Fault.IsOfWork (agreed source) :=
  .bind (Action.fails_write _) fun _ => .bind (Action.fails_ask _) fun _ =>
    .ite (.bind (Action.fails_write _) fun _ => .pure _)
      (.bind (Action.fails_write _) fun _ => .pure _)

theorem fails_brandTree (preview : Bool) (layout : Layout) (brand : Brand) (root : Path) :
    FailsWith Fault.IsOfWork (brandTree preview layout brand root) :=
  .bind (Files.fails_during (Files.fails_brandSources _ _ _ _) _) fun _ =>
    .bind (Files.fails_during (Files.fails_brandLoaderFile _ _ _ _) _) fun _ => .pure _

/-- What is left to do when everything has been checked. -/
def goOn (c : RunContext) (resolution : Resolution) (template : Path) (report : Report) :
    Action (Option Manifest) := do
  if !c.isPreview && !c.isForced then
    if !(← agreed report.source) then return none
  return some (← proceed c resolution template report)

/-- A run stops at a check, or it goes on from the files that it was given, with nothing but lines
shown. -/
theorem run_cases (c : RunContext) (w : World) :
    (∃ fault, run c w = (.error fault, w)) ∨
      ∃ explicit resolution template report lines, c.explicitBrand? = .ok explicit ∧
        State.resolve explicit c.stateFile false w.tree = (.ok resolution, w.tree) ∧
        c.templateDir = .ok template ∧ w.tree.isDirectory template = true ∧
        run c w = goOn c resolution template report
          { w with console := w.console.writeLines lines } := by
  unfold run
  cases hexplicit : c.explicitBrand? with
  | error fault => exact Or.inl ⟨fault, rfl⟩
  | ok explicit =>
    rw [Action.ofAnswer_ok_bind]
    have hsame : w.tree = (State.resolve explicit c.stateFile false w.tree).2 :=
      State.moves_resolve explicit c.stateFile w.tree
    rw [Action.files_bind_apply]
    cases hresolve : State.resolve explicit c.stateFile false w.tree with
    | mk result t =>
      rw [hresolve] at hsame
      obtain rfl : w.tree = t := hsame
      cases result with
      | error fault => exact Or.inl ⟨fault, rfl⟩
      | ok resolution =>
        dsimp only
        cases htemplate : c.templateDir with
        | error fault => exact Or.inl ⟨fault, rfl⟩
        | ok template =>
          rw [Action.ofAnswer_ok_bind, Action.query_bind_apply]
          by_cases hdir : w.tree.isDirectory template = true
          · rw [if_neg (by simp [hdir]), Action.write_bind_apply]
            exact Or.inr ⟨explicit, resolution, template, ⟨⟨.install, c.isPreview⟩,
              resolution.brand.name, resolution.brand.targetText, c.shown template, none,
              c.settings.build.loader, c.layout.loaderFile.text⟩, _, rfl, hresolve, rfl, hdir,
              by dsimp only [goOn]⟩
          · rw [if_pos (by simpa using hdir)]
            exact Or.inl ⟨_, rfl⟩

theorem fails_proceed (c : RunContext) (resolution : Resolution) (template : Path)
    (report : Report) :
    FailsWith Fault.IsOfWork (proceed c resolution template report) := by
  unfold proceed
  extract_lets preview branded
  have hbranded : ∀ u, FailsWith Fault.IsOfWork (branded u) := by
    intro u
    refine .bind (Action.fails_write _) fun _ => ?_
    refine .bind (Action.fails_files (fails_brandTree _ _ _ _)) fun m => ?_
    exact .bind (Action.fails_write _) fun _ => .bind (Action.fails_write _) fun _ => .pure _
  exact .ite (.bind (Action.fails_files (State.fails_remember _ _)) hbranded) (hbranded ())

/-- Behind the checks there are no faults of the request. -/
theorem fails_goOn (c : RunContext) (resolution : Resolution) (template : Path) (report : Report) :
    FailsWith Fault.IsOfWork (goOn c resolution template report) := by
  have hrest : FailsWith Fault.IsOfWork (do
      return some (← proceed c resolution template report)) :=
    .bind (fails_proceed c resolution template report) fun _ => .pure _
  exact .ite (.bind (fails_agreed _) fun _ => .ite (.pure _) hrest) hrest

/-- Asking leaves the files as they are. -/
theorem tree_agreed (source : String) (w : World) : (agreed source w).2.tree = w.tree := by
  unfold agreed
  rw [Action.write_bind_apply, bind_apply, Action.ask_eq]
  cases ((w.console.writeLines _).ask "Do you want to continue?").1 with
  | ok yes => cases yes <;> rfl
  | error r => rfl

/-- A run that goes on has been declined, or it proceeds. -/
theorem goOn_eq_ok {c : RunContext} {resolution : Resolution} {template : Path} {report : Report}
    {w w' : World} {r : Option Manifest} (h : goOn c resolution template report w = (.ok r, w')) :
    (c.isPreview = false ∧ c.isForced = false ∧ r = none ∧ w'.tree = w.tree) ∨
      ∃ m w₁, r = some m ∧ w₁.tree = w.tree ∧
        proceed c resolution template report w₁ = (.ok m, w') := by
  have hproceeds : ∀ {w₁ : World}, w₁.tree = w.tree →
      (proceed c resolution template report >>= fun m => pure (some m)) w₁ = (.ok r, w') →
        ∃ m w₁, r = some m ∧ w₁.tree = w.tree ∧
          proceed c resolution template report w₁ = (.ok m, w') := by
    intro w₁ hw₁ hrun
    obtain ⟨m, w₂, hproceed, hend⟩ := bind_eq_ok.1 hrun
    obtain ⟨rfl, rfl⟩ := pure_eq_ok.1 hend
    exact ⟨m, w₁, rfl, hw₁, hproceed⟩
  unfold goOn at h
  by_cases hasks : (!c.isPreview && !c.isForced) = true
  · rw [if_pos hasks] at h
    obtain ⟨yes, w₁, hagreed, h⟩ := bind_eq_ok.1 h
    have hw₁ := tree_agreed report.source w
    rw [hagreed] at hw₁
    cases yes with
    | true => exact Or.inr (hproceeds hw₁ h)
    | false =>
      obtain ⟨rfl, rfl⟩ := pure_eq_ok.1 h
      rw [Bool.and_eq_true, Bool.not_eq_true', Bool.not_eq_true'] at hasks
      exact Or.inl ⟨hasks.1, hasks.2, rfl, hw₁⟩
  · rw [if_neg hasks] at h
    exact Or.inr (hproceeds rfl h)

/-- Whoever has not typed a yes has been asked. Then a line that is text is a refusal, and a line
that is not cannot be read. -/
theorem agreed_of_typed (source : String) {w : World} {input : ByteArray}
    (htyped : w.console.reply = .typed input)
    (hno : ∀ line, firstLine? input = some line → saysYes line = false) :
    ∃ w', w'.tree = w.tree ∧
      w'.console.asked = w.console.asked ++ ["Do you want to continue?"] ∧
      ((∃ line, firstLine? input = some line) ∧ agreed source w = (.ok false, w') ∨
        firstLine? input = none ∧
          agreed source w =
            (.error ((Fault.of (.refused .notText)).during .readingAnswer), w')) := by
  -- what is shown before the question makes no difference to the answer
  have hask := fun lines =>
    Console.ask_typed (c := w.console.writeLines lines) htyped "Do you want to continue?"
  unfold agreed
  rw [Action.write_bind_apply, bind_apply, Action.ask_eq]
  cases hline : firstLine? input with
  | some line =>
    rw [(hask _).2.1 line hline, hno line hline]
    refine ⟨_, ?_, ?_, Or.inl ⟨⟨line, rfl⟩, rfl⟩⟩
    · rfl
    · exact (hask _).1
  | none =>
    rw [(hask _).2.2 hline]
    refine ⟨_, ?_, ?_, Or.inr ⟨rfl, rfl⟩⟩
    · rfl
    · exact (hask _).1

/-- A fault of the request comes before anything is written or shown. -/
theorem eq_of_request_fault {c : RunContext} {w w' : World} {fault : Fault}
    (h : run c w = (.error fault, w')) (hrequest : fault.cause.isOfRequest = true) : w' = w := by
  obtain ⟨fault', hstop⟩ | ⟨_, resolution, template, report, _, -, -, -, -, hrun⟩ := run_cases c w
  · rw [hstop] at h
    exact (Prod.mk.inj h).2.symm
  · rw [hrun] at h
    have hfiles : fault.cause.isOfRequest = false := fails_goOn c resolution template report _ _ _ h
    rw [hfiles] at hrequest
    cases hrequest

/-- A run that has to ask stops where it asks, unless it has stopped at a check. -/
theorem run_refused {c : RunContext} (hpreview : c.isPreview = false) (hforced : c.isForced = false)
    {w : World} {input : ByteArray} (htyped : w.console.reply = .typed input)
    (hno : ∀ line, firstLine? input = some line → saysYes line = false) :
    (∃ fault, run c w = (.error fault, w)) ∨
      ∃ w', w'.tree = w.tree ∧
        w'.console.asked = w.console.asked ++ ["Do you want to continue?"] ∧
        ((∃ line, firstLine? input = some line) ∧ run c w = (.ok none, w') ∨
          firstLine? input = none ∧
            run c w = (.error ((Fault.of (.refused .notText)).during .readingAnswer), w')) := by
  refine (run_cases c w).imp_right ?_
  rintro ⟨_, resolution, template, report, lines, -, -, -, -, hrun⟩
  obtain ⟨w', htree, hasked, hend⟩ := agreed_of_typed report.source
    (w := { w with console := w.console.writeLines lines }) htyped hno
  refine ⟨w', htree, hasked, ?_⟩
  rw [hrun, goOn, if_pos (by simp [hpreview, hforced]), bind_apply]
  refine hend.imp (fun ⟨hline, hagreed⟩ => ⟨hline, ?_⟩) fun ⟨hline, hagreed⟩ => ⟨hline, ?_⟩
  · rw [hagreed]
    rfl
  · rw [hagreed]

/-- A project with a template. -/
private def askedTree : Tree := .putAll ∅
  [(["src"], .directory), (["src", "App.php"], .file "<?php\nnamespace WPLite;\n".toUTF8)]

/-- A byte that is in no text stops the run where it asks. -/
example :
    ((Command.context ⟨.ofString "/", none⟩ ["--prefix=Acme"] >>= run)
        (.typed ⟨#[0xFF, 0x0A]⟩ askedTree)).1 =
      .error ((Fault.of (.refused .notText)).during .readingAnswer) := by
  decide +kernel

/-- Had it been a yes, the template would have become the brand's. -/
example : ((Command.context ⟨.ofString "/", none⟩ ["--prefix=Acme"] >>= run)
      (.typed "y\n".toUTF8 askedTree)).2.tree.get? ["src", "App.php"] =
    some (.file "<?php\nnamespace Acme\\WPLite;\n".toUTF8) := by
  decide +kernel

end Install

theorem State.checksFirst_resolve (explicit : Option String) (file : Path) (persist : Bool) :
    Files.ChecksFirst (resolve explicit file persist) := by
  cases explicit with
  | some raw =>
    refine .bind (moves_brandOf raw) fun brand => .of_fails (.ite ?_ (.pure _))
    exact .bind (fails_remember file brand) fun _ => .pure _
  | none => exact .of_moves (moves_resolve none file)

namespace Build

/-! ### A build -/

theorem fails_refill (preview : Bool) (template output : Path) :
    FailsWith Fault.IsOfWork (refill preview template output) := by
  have hfill : FailsWith Fault.IsOfWork (do
      if preview then return template
      Files.during (.copyingTemplate template output) (Files.copyDirectory template output)
      return output) :=
    .ite (.pure _) (.bind (Files.fails_during (Files.fails_copyDirectory _ _) _) fun _ => .pure _)
  exact .bind .get fun _ => .ite (.bind (Files.fails_clean _ _) fun _ => hfill) hfill

theorem fails_brandTree (preview : Bool) (layout : Layout) (brand : Brand)
    (strategy : LoaderStrategy)
    (root : Path) : FailsWith Fault.IsOfWork (brandTree preview layout brand strategy root) :=
  .bind (Files.fails_during (Files.fails_brandSources _ _ _ _) _) fun _ =>
    .bind (Files.fails_during (Files.fails_generateLoader _ _ _ _ _) _) fun _ => .pure _

/-- A fault of the request finds the files as they were, or the brand is known then and has been
remembered where it had to be. -/
theorem work_request_fault {c : RunContext} {t t' : Tree} {fault : Fault}
    (h : work c t = (.error fault, t')) (hrequest : fault.cause.isOfRequest = true) :
    c.explicitBrand? = .error fault ∧ t' = t ∨
      ∃ explicit, c.explicitBrand? = .ok explicit ∧
        (State.resolve explicit c.stateFile (!c.isPreview) t = (.error fault, t') ∨
          ∃ resolution,
            State.resolve explicit c.stateFile (!c.isPreview) t = (.ok resolution, t')) := by
  unfold work at h
  cases hexplicit : c.explicitBrand? with
  | error fault' =>
    rw [hexplicit] at h
    cases h
    exact Or.inl ⟨rfl, rfl⟩
  | ok explicit =>
    rw [hexplicit, Files.ofResult_ok, pure_bind] at h
    refine Or.inr ⟨explicit, rfl, ?_⟩
    obtain hresolve | ⟨resolution, t₁, hresolve, hrest⟩ := bind_eq_error.1 h
    · exact Or.inl hresolve
    refine Or.inr ⟨resolution, ?_⟩
    have hchecks : Files.ChecksFirst (do
        let template ← Files.ofResult c.templateDir
        let output ← Files.ofResult c.outputDir
        let strategy ← Files.ofResult c.strategy
        Files.ofResult ((← get).checkApart template output)
        let root ← refill c.isPreview template output
        brandTree c.isPreview c.layout resolution.brand strategy root) := by
      refine .bind (Files.moves_ofResult _) fun template =>
        .bind (Files.moves_ofResult _) fun output => ?_
      refine .bind (Files.moves_ofResult _) fun strategy => .bind Moves.get fun _ => ?_
      refine .bind (Files.moves_ofResult _) fun _ => .of_fails ?_
      exact .bind (fails_refill _ _ _) fun _ => fails_brandTree _ _ _ _ _
    rw [hresolve, hchecks t₁ fault t' hrest hrequest]

/-- A build with a fault of the request has written nothing, unless it has a brand to remember. Then
it has remembered the brand and done nothing else to the files. -/
theorem run_request_fault {c : RunContext} {w w' : World} {fault : Fault}
    (h : run c w = (.error fault, w')) (hrequest : fault.cause.isOfRequest = true) :
    ((c.isPreview = true ∨ ∀ brand : Brand, c.explicitBrand? ≠ .ok (some brand.name)) →
        w'.tree = w.tree) ∧
      ∀ brand : Brand, c.isPreview = false → c.explicitBrand? = .ok (some brand.name) →
        State.remember c.stateFile brand w.tree = (.ok (), w'.tree) := by
  obtain ⟨hresult, htree⟩ := mirrors_run c w
  rw [h] at hresult htree
  have hwork : work c w.tree = (.error fault, w'.tree) := Prod.ext hresult.symm htree.symm
  obtain ⟨hexplicit, hsame⟩ | ⟨explicit, hexplicit, hresolve⟩ := work_request_fault hwork hrequest
  · rw [hexplicit]
    exact ⟨fun _ => hsame, fun _ _ hok => by cases hok⟩
  rw [hexplicit]
  refine ⟨fun hnot => ?_, fun brand hreal hbrand => ?_⟩
  · obtain hfails | ⟨resolution, hdone⟩ := hresolve
    · exact State.checksFirst_resolve _ _ _ _ _ _ hfails hrequest
    · refine ((State.moves_resolve_unsaved ?_ c.stateFile).of_eq_ok hdone).symm
      refine hnot.imp (fun hpreview => by rw [hpreview]; rfl) fun hnot brand heq => ?_
      exact hnot brand (congrArg Except.ok heq)
  · obtain rfl := Except.ok.inj hbrand
    rw [hreal, Bool.not_false, State.resolve_brand] at hresolve
    obtain hfails | ⟨resolution, hdone⟩ := hresolve
    · obtain hremember | ⟨_, _, -, hend⟩ := bind_eq_error.1 hfails
      · have hfiles : fault.cause.isOfRequest = false := State.fails_remember _ _ _ _ _ hremember
        rw [hfiles] at hrequest
        cases hrequest
      · cases hend
    · obtain ⟨u, t₁, hremember, hend⟩ := bind_eq_ok.1 hdone
      obtain ⟨-, rfl⟩ := pure_eq_ok.1 hend
      exact hremember

/-- A project without a template. -/
private def missingWorld : World := .typed .empty <| .putAll ∅
  [(["other"], .directory), (["other", "App.php"], .file "<?php\nnamespace WPLite;\n".toUTF8)]

private theorem run_missing : ∃ w', run (.inRoot {} ["--prefix=Acme"]) missingWorld =
    (.error (.of (.noTemplate (.ofString "/src"))), w') := by
  have hfault : (run (.inRoot {} ["--prefix=Acme"]) missingWorld).1 =
      .error (.of (.noTemplate (.ofString "/src"))) := by decide +kernel
  exact ⟨_, Prod.ext hfault rfl⟩

/-- The template is missed when the brand has been remembered. -/
theorem run_request_fault_no_template : ∃ w', run (.inRoot {} ["--prefix=Acme"]) missingWorld =
      (.error (.of (.noTemplate (.ofString "/src"))), w') ∧
    State.remember (.ofString "/nsbrand.json") ⟨"Acme", by decide⟩ missingWorld.tree =
      (.ok (), w'.tree) := by
  obtain ⟨w', hrun⟩ := run_missing
  refine ⟨w', hrun, ?_⟩
  have hstate : (RunContext.inRoot {} ["--prefix=Acme"]).stateFile = .ofString "/nsbrand.json" := by
    decide +kernel
  rw [← hstate]
  exact (run_request_fault hrun rfl).2 ⟨"Acme", by decide⟩ (by decide +kernel)
    (by decide +kernel)

/-- So a fault of the request can come when a file has been written. -/
theorem exists_written_run_request_fault :
    RunContext.load none (.ofString "/") (.parse ["--prefix=Acme"]) missingWorld.tree =
        .ok (.inRoot {} ["--prefix=Acme"]) ∧
      (run (.inRoot {} ["--prefix=Acme"]) missingWorld).1 =
        .error (.of (.noTemplate (.ofString "/src"))) ∧
      missingWorld.tree.get? ["nsbrand.json"] = none ∧
      (run (.inRoot {} ["--prefix=Acme"]) missingWorld).2.tree.get? ["nsbrand.json"] =
        some (.file "\x7b\n  \"prefix\": \"Acme\"\n\x7d\n".toUTF8) := by
  refine ⟨RunContext.load_inRoot ?_ _, ?_, ?_, ?_⟩
  · decide +kernel
  · decide +kernel
  · decide +kernel
  · decide +kernel

end Build

end Branding
