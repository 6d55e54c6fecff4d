import Branding.Files.Clean
import Branding.Files.Copy
import Branding.Files.Sources
import Branding.Loader.Placement
import Branding.Proofs.Work
import Branding.State

/-!
# What work on files fails with

Two kinds of causes make a run fail. Some are found by looking at what the user asked for: a brand,
a directory or an option that is no good. The others are met at work, with a file or an answer that
cannot be read or written, and no activity around the work turns one kind into the other. Once a run
only works on files, the causes of the first kind are behind it.

## Main definitions

* `Cause.isOfRequest` — a cause of the first kind
* `Fault.IsOfWork` — a fault of the second kind

## Main results

* `Files.fails_writeText`, `Files.fails_clean`, `Files.fails_copyDirectory`,
  `Files.fails_brandSources`, `Files.fails_generateLoader`, `Files.fails_brandLoaderFile`,
  `State.fails_remember` — what is written and removed, piece by piece
-/

namespace Branding

/-- The cause is found by looking at what the user asked for. -/
def Cause.isOfRequest : Cause → Bool
  | .noBrand | .badBrand _ | .noTemplate _ | .overlap _ _ | .settings _ | .argument _ => true
  | .files _ | .copy _ | .refused _ => false

/-- The fault is met at work, and not by looking at what the user asked for. -/
def Fault.IsOfWork (fault : Fault) : Prop := fault.cause.isOfRequest = false

namespace Files

variable {α : Type}

theorem fails_fail {cause : Cause} (h : cause.isOfRequest = false) :
    FailsWith Fault.IsOfWork (fail cause : Files α) :=
  .throw h

theorem fails_during {work : Files α} (h : FailsWith Fault.IsOfWork work) (activity : Activity) :
    FailsWith Fault.IsOfWork (during activity work) :=
  h.adapt fun _ hcause => hcause

theorem fails_edit (change : Edit α) : FailsWith Fault.IsOfWork (edit change) :=
  FailsWith.adapt (P := fun _ => True) (fun _ _ _ _ => trivial) fun _ _ => rfl

theorem fails_ofAnswer (answer : Except Refusal α) :
    FailsWith Fault.IsOfWork (ofAnswer answer) := by
  cases answer with
  | ok a => exact .pure a
  | error r => exact fails_fail rfl

theorem fails_ensureDirectory (p : Path) : FailsWith Fault.IsOfWork (ensureDirectory p) :=
  .bind .get fun _ => .ite (fails_during (fails_edit _) _) <|
    .bind .get fun _ => .ite (fails_fail rfl) (.pure ())

theorem fails_writeText (p : Path) (text : String) :
    FailsWith Fault.IsOfWork (writeText p text) := by
  have hwrite := fails_during (fails_edit (Edit.writeFile p text.toUTF8)) (.writingFile p)
  unfold writeText
  cases p.parent? with
  | none => exact .bind (.pure ()) fun _ => hwrite
  | some parent => exact .ite (.bind (fails_ensureDirectory parent) fun _ => hwrite) hwrite

theorem fails_readText? (p : Path) : FailsWith Fault.IsOfWork (readText? p) :=
  .bind (.bind .get fun _ => fails_during (fails_ofAnswer _) _) fun _ => .pure _

theorem fails_removeFile (p : Path) : FailsWith Fault.IsOfWork (removeFile p) :=
  .bind .get fun _ => .ite (.bind (fails_during (fails_edit _) _) fun _ => .pure _) (.pure _)

/-! ### Removing and copying -/

theorem fails_refuse (p inside : Path) (r : Refusal) :
    FailsWith Fault.IsOfWork (removeAt.refuse p inside r) :=
  fails_during (fails_during (fails_fail rfl) _) _

theorem fails_removeAt (p : Path) (visit : Visit) :
    FailsWith Fault.IsOfWork (removeAt p visit) := by
  cases visit with
  | enter names =>
    refine .bind .get fun t => ?_
    cases t.closed? (p.descend names) with
    | none => exact .pure ()
    | some r => exact fails_refuse p _ r
  | leave names | file names | link names => exact fails_during (fails_edit _) _

theorem fails_enterAt (p : Path) (visit : Visit) : FailsWith Fault.IsOfWork (enterAt p visit) := by
  cases visit with
  | enter names => exact fails_removeAt p (.enter names)
  | leave names | file names | link names => exact .pure ()

theorem fails_clean (preview : Bool) (p : Path) : FailsWith Fault.IsOfWork (clean preview p) := by
  refine .bind .get fun t => .ite ?_ (.pure _)
  cases t.walk p with
  | error r => exact .bind (fails_refuse p p r) fun _ => .pure _
  | ok visits =>
    cases preview with
    | true => exact .bind (.forM (fails_enterAt p) visits) fun _ => .pure _
    | false => exact .bind (.forM (fails_removeAt p) visits) fun _ => .pure _

theorem fails_copyStep (change : Edit α) : FailsWith Fault.IsOfWork (copyStep change) :=
  FailsWith.adapt (P := fun _ => True) (fun _ _ _ _ => trivial) fun _ _ => rfl

theorem fails_copyInto (source target : Path) :
    FailsWith Fault.IsOfWork (copyInto source target) := by
  refine .bind .get fun t => ?_
  -- what follows a check is copied into both of its branches
  refine .ite (.bind (fails_fail rfl) fun _ => .ite (.bind (fails_fail rfl) fun _ => ?_) ?_)
    (.ite (.bind (fails_fail rfl) fun _ => ?_) ?_)
  all_goals
    cases t.contents source with
    | error r => exact fails_fail rfl
    | ok contents =>
      exact .bind (.forM (fun _ => fails_copyStep _) _) fun _ => .forM (fun _ => fails_copyStep _) _

theorem fails_copyDirectory (source target : Path) :
    FailsWith Fault.IsOfWork (copyDirectory source target) :=
  .bind (fails_ensureDirectory target) fun _ => fails_during (fails_copyInto source target) _

/-! ### Branding -/

theorem fails_brandFile (preview : Bool) (brand : Brand) (role : FileRole) (file : Path) :
    FailsWith Fault.IsOfWork (brandFile preview brand role file) := by
  refine .bind (fails_readText? file) fun text => ?_
  cases text with
  | none => exact .pure false
  | some text =>
    exact .ite (.pure false) (.ite (.bind (fails_writeText _ _) fun _ => .pure _) (.pure _))

theorem fails_brandSource (preview : Bool) (layout : Layout) (brand : Brand) (root : Path)
    (names : List String) :
    FailsWith Fault.IsOfWork (brandSource preview layout brand root names) := by
  refine .ite (.pure _) ?_
  cases layout.role? (Path.ofNames false names) with
  | none => exact .pure _
  | some role => exact .bind (fails_brandFile _ _ _ _) fun _ => .ite (.pure _) (.pure _)

theorem fails_brandAt (preview : Bool) (layout : Layout) (brand : Brand) (root : Path)
    (visit : Visit) : FailsWith Fault.IsOfWork (brandAt preview layout brand root visit) := by
  cases visit with
  | file names => exact fails_brandSource preview layout brand root names
  | leave names | link names => exact .pure []
  | enter names =>
    refine .bind .get fun t => ?_
    cases t.closed? (root.descend names) with
    | none => exact .pure []
    | some r => exact fails_during (fails_during (fails_fail rfl) _) _

theorem fails_brandSources (preview : Bool) (layout : Layout) (brand : Brand) (root : Path) :
    FailsWith Fault.IsOfWork (brandSources preview layout brand root) := by
  refine .bind .get fun t => ?_
  cases t.walk root with
  | error r => exact fails_during (fails_during (fails_fail rfl) _) _
  | ok visits => exact .bind (.mapM (fails_brandAt preview layout brand root) _) fun _ => .pure _

theorem fails_placeLoader (preview : Bool) (root relative : Path) (text : String) :
    FailsWith Fault.IsOfWork (placeLoader preview root relative text) := by
  have hplace : ∀ changed : Bool, FailsWith Fault.IsOfWork (if (changed && !preview) = true then do
      writeText (root.join relative) text
      return (⟨relative, changed, .loader⟩ : FileRecord)
    else return ⟨relative, changed, .loader⟩) :=
    fun _ => .ite (.bind (fails_writeText _ _) fun _ => .pure _) (.pure _)
  exact .bind .get fun _ => .ite
    (.bind (fails_readText? _) fun _ => .bind (.pure _) hplace) (.bind (.pure _) hplace)

theorem fails_generateLoader (preview : Bool) (layout : Layout) (brand : Brand)
    (strategy : LoaderStrategy) (root : Path) :
    FailsWith Fault.IsOfWork (generateLoader preview layout brand strategy root) := by
  have hplace := fun text => fails_placeLoader preview root (layout.generated strategy) text
  exact .ite (.bind (fails_removeFile _) fun _ => .bind (hplace _) fun _ => .pure _)
    (.bind (hplace _) fun _ => .pure _)

theorem fails_brandLoaderFile (preview : Bool) (layout : Layout) (brand : Brand) (root : Path) :
    FailsWith Fault.IsOfWork (brandLoaderFile preview layout brand root) :=
  .bind .get fun _ => .ite
    (.bind (fails_brandFile _ _ _ _) fun _ => .ite (.pure _) (.pure _)) (.pure _)

end Files

theorem State.fails_remember (file : Path) (brand : Brand) :
    FailsWith Fault.IsOfWork (remember file brand) :=
  .bind .get fun _ => Files.fails_writeText _ _

end Branding
