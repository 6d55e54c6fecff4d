import Branding.Proofs.Work
import Branding.Run.Action

/-!
# A run, step by step

A run works on files and on a console at once. Where it succeeds, its work on the files has, and
what it shows leaves the files as they are. A run that asks nothing is about its files alone: with
the lines that it shows left out it is work on files, which comes to the same result.

## Main definitions

* `Action.Mirrors` — a run does to the files what some work does
* `Action.Ends` — how a run ends that succeeds

## Main results

* `Action.files_eq_ok`, `Action.ofAnswer_eq_ok`, `Action.query_eq_ok`, `Action.write_eq_ok` — the
  steps of a run that succeeds
* `Action.exists_of_files_bind`, `Action.exists_of_write_bind` — the same, at the head of a run
-/

namespace Branding

/-- An answer, where a fault is a failure of work on files. -/
def Files.ofResult {α : Type} : Except Fault α → Files α
  | .ok a => pure a
  | .error fault => throw fault

@[simp] theorem Files.ofResult_ok {α : Type} (a : α) : ofResult (.ok a) = pure a := rfl

theorem Files.after_ofResult_bind {α β : Type} {P : Tree → Prop} {answer : Except Fault α}
    {k : α → Files β} {t : Tree} (ht : P t) (hk : ∀ a, answer = .ok a → P (k a t).2) :
    P ((ofResult answer >>= k) t).2 := by
  cases answer with
  | ok a => exact hk a rfl
  | error fault => exact ht

theorem Files.exists_of_ofResult_bind {α β : Type} {answer : Except Fault α} {k : α → Files β}
    {t t' : Tree} {b : β} (h : (ofResult answer >>= k) t = (.ok b, t')) :
    ∃ a, answer = .ok a ∧ k a t = (.ok b, t') := by
  obtain ⟨a, s, hanswer, hrest⟩ := bind_eq_ok.1 h
  cases answer with
  | ok a' =>
    obtain ⟨rfl, rfl⟩ := pure_eq_ok.1 hanswer
    exact ⟨a', rfl, hrest⟩
  | error fault => exact absurd hanswer throw_ne_ok

namespace Action

variable {α : Type} {w w' : World} {a : α}

theorem files_eq_ok {work : Files α} :
    files work w = (.ok a, w') ↔ work w.tree = (.ok a, w'.tree) ∧ w'.console = w.console := by
  show ((work w.tree).1, { w with tree := (work w.tree).2 }) = (Except.ok a, w') ↔ _
  constructor
  · rintro h
    obtain ⟨hresult, rfl⟩ := Prod.mk.inj h
    exact ⟨Prod.ext hresult rfl, rfl⟩
  · rintro ⟨hwork, hconsole⟩
    rw [hwork]
    cases w'
    cases hconsole
    rfl

theorem ofAnswer_eq_ok {answer : Except Fault α} :
    ofAnswer answer w = (.ok a, w') ↔ answer = .ok a ∧ w = w' := by
  cases answer with
  | ok b =>
    rw [ofAnswer, pure_eq_ok]
    simp
  | error fault => exact ⟨nofun, nofun⟩

theorem query_eq_ok {question : Tree → α} :
    query question w = (.ok a, w') ↔ question w.tree = a ∧ w = w' := by
  show (Except.ok (question w.tree), w) = (Except.ok a, w') ↔ _
  simp

theorem write_eq_ok {lines : List Line} {u : Unit} (h : write lines w = (.ok u, w')) :
    w'.tree = w.tree := by
  rw [← modify_eq_ok.1 h]

/-! ### A step and what follows it -/

variable {β : Type} {b : β} {k : α → Action β}

theorem exists_of_files_bind {work : Files α} (h : (files work >>= k) w = (.ok b, w')) :
    ∃ a w₁, work w.tree = (.ok a, w₁.tree) ∧ k a w₁ = (.ok b, w') := by
  obtain ⟨a, w₁, hwork, hrest⟩ := bind_eq_ok.1 h
  exact ⟨a, w₁, (files_eq_ok.1 hwork).1, hrest⟩

theorem exists_of_write_bind {lines : List Line} {k : Unit → Action β}
    (h : (write lines >>= k) w = (.ok b, w')) :
    ∃ w₁, w₁.tree = w.tree ∧ k () w₁ = (.ok b, w') := by
  obtain ⟨u, w₁, hwrite, hrest⟩ := bind_eq_ok.1 h
  exact ⟨w₁, write_eq_ok hwrite, hrest⟩

theorem ofAnswer_ok_bind (a : α) (k : α → Action β) : (ofAnswer (.ok a) >>= k) w = k a w := rfl

theorem query_bind_apply (question : Tree → α) (k : α → Action β) :
    (query question >>= k) w = k (question w.tree) w := rfl

theorem write_bind_apply (lines : List Line) (k : Unit → Action β) :
    (write lines >>= k) w = k () { w with console := w.console.writeLines lines } := rfl

theorem files_bind_apply (work : Files α) (k : α → Action β) :
    (files work >>= k) w =
      match work w.tree with
      | (.ok a, t) => k a { w with tree := t }
      | (.error fault, t) => (.error fault, { w with tree := t }) := by
  have hfiles : files work w = ((work w.tree).1, { w with tree := (work w.tree).2 }) := rfl
  rw [bind_apply, hfiles]
  cases work w.tree with
  | mk result t => cases result <;> rfl

/-! ### What a run does to the files -/

/-- A run does to the files what some work does, and comes to the same result. -/
def Mirrors (run : Action α) (work : Files α) : Prop :=
  ∀ w, (run w).1 = (work w.tree).1 ∧ (run w).2.tree = (work w.tree).2

namespace Mirrors

variable {run : Action α} {work : Files α} {g : α → Files β}

theorem eq_ok (h : Mirrors run work) (hrun : run w = (.ok a, w')) :
    work w.tree = (.ok a, w'.tree) := by
  obtain ⟨hresult, htree⟩ := h w
  rw [hrun] at hresult htree
  exact Prod.ext hresult.symm htree.symm

theorem files (work : Files α) : Mirrors (files work) work := fun _ => ⟨rfl, rfl⟩

theorem pure (a : α) : Mirrors (Pure.pure a) (Pure.pure a) := fun _ => ⟨rfl, rfl⟩

theorem ofAnswer (answer : Except Fault α) : Mirrors (ofAnswer answer) (Files.ofResult answer) := by
  cases answer with
  | ok a => exact pure a
  | error e => exact fun _ => ⟨rfl, rfl⟩

theorem ite {p : Prop} [Decidable p] {run' : Action α} {work' : Files α} (h : Mirrors run work)
    (h' : Mirrors run' work') : Mirrors (if p then run else run') (if p then work else work') := by
  split
  · exact h
  · exact h'

theorem bind (hrun : Mirrors run work) (hk : ∀ a, Mirrors (k a) (g a)) :
    Mirrors (run >>= k) (work >>= g) := by
  intro w
  obtain ⟨hresult, htree⟩ := hrun w
  rw [bind_apply, bind_apply]
  cases hfirst : run w with
  | mk result w₁ =>
    cases hsecond : work w.tree with
    | mk result' t₁ =>
      rw [hfirst, hsecond] at hresult htree
      obtain rfl : result = result' := hresult
      obtain rfl : w₁.tree = t₁ := htree
      cases result with
      | ok a => exact hk a w₁
      | error e => exact ⟨rfl, rfl⟩

theorem bind_end (hrun : Mirrors run work) {k : α → Action α}
    (hk : ∀ a, Mirrors (k a) (Pure.pure a)) :
    Mirrors (run >>= k) work := by
  rw [← bind_pure work]
  exact bind hrun hk

/-- A question put to the files is a look at them. -/
theorem query_bind {question : Tree → α} {f : Tree → Files β}
    (hk : ∀ t, Mirrors (k (question t)) (f t)) : Mirrors (query question >>= k) (get >>= f) := by
  intro w
  rw [get_bind_apply]
  exact hk w.tree w

/-- A question makes no difference to the files, where the answer makes none. -/
theorem query_bind_of {question : Tree → α} {work : Files β} (hk : ∀ a, Mirrors (k a) work) :
    Mirrors (query question >>= k) work :=
  fun w => hk (question w.tree) w

/-- What is shown leaves the files as they are. -/
theorem write_bind {lines : List Line} {k : PUnit → Action α} (hk : Mirrors (k ⟨⟩) work) :
    Mirrors (write lines >>= k) work :=
  fun w => hk { w with console := w.console.writeLines lines }

theorem ite_of {p : Prop} [Decidable p] {run' : Action α} (h : Mirrors run work)
    (h' : Mirrors run' work) : Mirrors (if p then run else run') work := by
  split
  · exact h
  · exact h'

theorem ite_write_bind {p : Prop} [Decidable p] {lines : List Line} {k : PUnit → Action α}
    (hk : Mirrors (k ⟨⟩) work) : Mirrors (if p then write lines >>= k else k ⟨⟩) work :=
  ite_of (write_bind hk) hk

end Mirrors

/-! ### How a run ends -/

variable {P : α → World → Prop}

/-- If a run succeeds, its answer and what it leaves are as described. -/
def Ends (P : α → World → Prop) (run : Action α) : Prop :=
  ∀ w a w', run w = (.ok a, w') → P a w'

namespace Ends

/-- What a run ends with is what its last piece ends with. -/
theorem bind {x : Action β} {k : β → Action α} (h : ∀ b, Ends P (k b)) : Ends P (x >>= k) := by
  intro w a w' hrun
  obtain ⟨b, w₁, -, hrest⟩ := bind_eq_ok.1 hrun
  exact h b w₁ a w' hrest

theorem ite {p : Prop} [Decidable p] {run run' : Action α} (h : Ends P run) (h' : Ends P run') :
    Ends P (if p then run else run') := by
  split
  · exact h
  · exact h'

end Ends

end Action

end Branding
