import Branding.Proofs.Remembered

/-!
# One call after another

All that runs in one directory tell each other about their brands is in the state file, so what a
run gets is up to every call that was made before it. A call writes when a brand is to be
remembered, or when one is asked for that is to be remembered at once, and these are the only calls
that write. So a call that fails without having been refused by the system has failed before it
wrote anything, and what comes of a series of calls is up to the last one that wrote, whatever the
state file had held before the first: a file that cannot be read counts as one without members, and
it is replaced.

## Main definitions

* `State.Call` — a brand is resolved, or one is remembered
* `State.Call.written?` — the brand that a call writes
* `State.runAll` — the files after a series of calls
* `State.WritesSucceed` — the system takes everything that is written in a series of calls

## Main results

* `State.Call.run_of_written?_eq_some`, `State.Call.moves_run` — what a single call does
* `State.brand?_runAll` — what is remembered after a series of calls
* `State.runAll_outcome` — what the calls of a series leave, and what is resolved after them
-/

namespace Branding

namespace State

/-- A call that resolves the brand of a run or remembers one. -/
inductive Call where
  | resolve (explicit : Option String) (persist : Bool)
  | remember (brand : Brand)
  deriving DecidableEq

namespace Call

/-- What a call does with a state file. -/
def run (file : Path) : Call → Files Unit
  | .resolve explicit persist => do
    let _ ← State.resolve explicit file persist
    return ()
  | .remember brand => State.remember file brand

/-- The brand that a call writes. One that is resolved is written when it is asked for, is one, and
is to be remembered. -/
def written? : Call → Option Brand
  | .resolve explicit persist => if persist then explicit.bind Brand.ofString? else none
  | .remember brand => some brand

end Call

/-- The files after a series of calls, which goes on when one of them fails. -/
def runAll (file : Path) (calls : List Call) (t : Tree) : Tree :=
  calls.foldl (fun t call => (call.run file t).2) t

/-- The brand that was written last in a series of calls. -/
def lastWritten? (calls : List Call) : Option Brand := (calls.filterMap Call.written?).getLast?

/-- The system takes everything that is written in a series of calls. -/
def WritesSucceed (file : Path) : List Call → Tree → Prop
  | [], _ => True
  | call :: calls, t =>
    (∀ brand ∈ call.written?, (remember file brand t).1.isOk = true) ∧
      WritesSucceed file calls (call.run file t).2

/-- Whether the system takes everything is found by making the calls. -/
instance decidableWritesSucceed (file : Path) : ∀ calls t, Decidable (WritesSucceed file calls t)
  | [], _ => isTrue trivial
  | call :: calls, t =>
    have := decidableWritesSucceed file calls (call.run file t).2
    inferInstanceAs (Decidable (_ ∧ _))

variable {file : Path} {t : Tree} {call : Call} {calls : List Call} {brand : Brand}

/-! ### A single call -/

theorem Call.written?_eq_some_iff : call.written? = some brand ↔
    call = .remember brand ∨ call = .resolve (some brand.name) true := by
  cases call with
  | remember other => simp [written?]
  | resolve explicit persist =>
    cases explicit with
    | none => simp [written?]
    | some raw =>
      cases persist with
      | false => simp [written?]
      | true =>
        have hwritten : written? (.resolve (some raw) true) = Brand.ofString? raw := rfl
        rw [hwritten, Brand.ofString?_eq_some_iff]
        simp [eq_comm]

/-- A call that writes a brand does what remembering the brand does. -/
theorem Call.run_of_written?_eq_some (h : call.written? = some brand) :
    call.run file = State.remember file brand := by
  obtain rfl | rfl := written?_eq_some_iff.1 h
  · rfl
  · funext t
    rw [run, resolve_brand, bind_apply, bind_apply]
    obtain ⟨result, s⟩ := State.remember file brand t
    cases result <;> rfl

/-- A call that writes no brand leaves the files as they are. -/
theorem Call.moves_run (h : call.written? = none) (file : Path) : Moves Eq (call.run file) := by
  cases call with
  | remember brand => cases h
  | resolve explicit persist =>
    refine Moves.bind (moves_resolve_unsaved ?_ file) fun _ => Moves.pure _
    rw [or_iff_not_imp_left]
    rintro hpersist brand rfl
    rw [written?_eq_some_iff.2 (Or.inr (by rw [Bool.eq_true_of_not_eq_false hpersist]))] at h
    cases h

/-! ### A series of calls -/

theorem lastWritten?_cons (call : Call) (calls : List Call) :
    lastWritten? (call :: calls) = (lastWritten? calls).or call.written? := by
  unfold lastWritten?
  cases h : call.written? with
  | none => rw [List.filterMap_cons_none h, Option.or_none]
  | some brand =>
    rw [List.filterMap_cons_some h, List.getLast?_cons]
    cases (calls.filterMap Call.written?).getLast? <;> rfl

/-- The system takes what any one call of the series writes. -/
theorem WritesSucceed.remember {before after : List Call}
    (h : WritesSucceed file (before ++ call :: after) t) (hbrand : call.written? = some brand) :
    (State.remember file brand (runAll file before t)).1.isOk = true := by
  induction before generalizing t with
  | nil => exact h.1 brand hbrand
  | cons first before ih => exact ih h.2

/-- What is remembered after a series of calls is the brand that was written last. Where none was
written the files are what they were. -/
theorem brand?_runAll (h : WritesSucceed file calls t) :
    match lastWritten? calls with
    | some brand => brand? (runAll file calls t) file = some brand.name
    | none => runAll file calls t = t := by
  induction calls generalizing t with
  | nil => rfl
  | cons call calls ih =>
    have hrest := ih h.2
    have hrun : runAll file (call :: calls) t = runAll file calls (call.run file t).2 := rfl
    rw [lastWritten?_cons, hrun]
    cases hlast : lastWritten? calls with
    | some brand =>
      rw [hlast] at hrest
      exact hrest
    | none =>
      rw [hlast] at hrest
      dsimp only at hrest
      rw [hrest, Option.none_or]
      cases hwritten : call.written? with
      | none => exact (Call.moves_run hwritten file t).symm
      | some brand =>
        have hok := h.1 brand hwritten
        dsimp only
        rw [Call.run_of_written?_eq_some hwritten]
        cases hremember : State.remember file brand t with
        | mk result s =>
          rw [hremember] at hok
          cases result with
          | ok u => exact brand?_of_remember hremember
          | error fault => cases hok

/-- In a series of calls whose writes all succeed, a call that fails leaves the files as they are,
only a call that remembers a brand, or that asks for one which is to be remembered, makes them
different, and a run that asks for no brand gets the one that was written last. Where none was
written it gets what it would have got before the first call. -/
theorem runAll_outcome (h : WritesSucceed file calls t) :
    (∀ before call after, calls = before ++ call :: after →
      (∀ fault s, call.run file (runAll file before t) = (.error fault, s) →
        s = runAll file before t) ∧
        ((call.run file (runAll file before t)).2 ≠ runAll file before t →
          ∃ brand, call = .remember brand ∨ call = .resolve (some brand.name) true)) ∧
      ∀ persist, resolve none file persist (runAll file calls t) =
        match lastWritten? calls with
        | some brand => (.ok ⟨brand, .persisted, false⟩, runAll file calls t)
        | none => resolve none file persist t := by
  refine ⟨fun before call after hcalls => ?_, fun persist => ?_⟩
  · subst hcalls
    cases hwritten : call.written? with
    | none =>
      have hsame := Call.moves_run hwritten file (runAll file before t)
      refine ⟨fun fault s hrun => ?_, fun hne => absurd hsame.symm hne⟩
      rw [hsame, hrun]
    | some brand =>
      have hok := h.remember hwritten
      refine ⟨fun fault s hrun => ?_, fun _ => ⟨brand, Call.written?_eq_some_iff.1 hwritten⟩⟩
      rw [← Call.run_of_written?_eq_some hwritten, hrun] at hok
      cases hok
  · have hlast := brand?_runAll h
    cases hcalls : lastWritten? calls with
    | some brand =>
      rw [hcalls] at hlast
      exact resolve_none hlast persist
    | none =>
      rw [hcalls] at hlast
      rw [show runAll file calls t = t from hlast]

/-- A state file that holds no object. -/
private def listTree : Tree := (∅ : Tree).put ["nsbrand.json"] (.file "[1, 2".toUTF8)

private def acmeCalls : List Call :=
  [.resolve none true, .resolve (some "1x") true, .remember ⟨"Beta", by decide⟩,
    .resolve (some "Acme") true, .resolve (some "Other") false, .resolve (some "a-b") true]

/-- The brand that was written last is the one that counts. -/
theorem runAll_outcome_last_written :
    WritesSucceed (.ofString "/nsbrand.json") acmeCalls listTree ∧
      resolve none (.ofString "/nsbrand.json") true
          (runAll (.ofString "/nsbrand.json") acmeCalls listTree) =
        (.ok ⟨⟨"Acme", by decide⟩, .persisted, false⟩,
          runAll (.ofString "/nsbrand.json") acmeCalls listTree) := by
  have hwrites : WritesSucceed (.ofString "/nsbrand.json") acmeCalls listTree := by decide +kernel
  exact ⟨hwrites, (runAll_outcome hwrites).2 true⟩

end State

end Branding
