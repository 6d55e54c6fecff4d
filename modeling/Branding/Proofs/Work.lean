import Mathlib.Order.Defs.Unbundled

/-!
# Work, step by step

Everything that a run does is work on a state that may fail, and what was changed before a failure
stays changed. Three things are asked about such work. What it does where it succeeds is found by
taking the run apart: each step has succeeded, and left the state that the next one began with. What
it fails with is what one of its steps fails with. And what it does in any case is said by a
relation between the state before and the state after, which the steps hand on to the whole, whether
one of them fails or not.

## Main definitions

* `FailsWith` — all failures of the work satisfy a condition
* `Moves` — whatever comes of the work, the states before and after are related
* `Keeps` — what is true before is true after

## Main results

* `bind_eq_ok` — work has succeeded when each step has
* `bind_eq_error` — work has failed when one of its steps has
* `after_bind` — what is true after each step is true after the whole
* `Moves.bind`, `Moves.mapM` — the steps hand the relation on
-/

namespace Branding

variable {ε ε' σ α β : Type}

/-! ### Where work succeeds -/

theorem bind_apply (x : ExceptT ε (StateM σ) α) (f : α → ExceptT ε (StateM σ) β) (s : σ) :
    (x >>= f) s =
      match x s with
      | (.ok a, s') => f a s'
      | (.error e, s') => (.error e, s') := by
  show ((x.run >>= ExceptT.bindCont f : StateM σ (Except ε β)) s) = _
  show ExceptT.bindCont f (x s).1 (x s).2 = _
  cases hx : x s with
  | mk result s' => cases result <;> rfl

/-- Work has succeeded when each step has. -/
theorem bind_eq_ok {x : ExceptT ε (StateM σ) α} {f : α → ExceptT ε (StateM σ) β} {s s' : σ}
    {b : β} :
    (x >>= f) s = (.ok b, s') ↔ ∃ a s₁, x s = (.ok a, s₁) ∧ f a s₁ = (.ok b, s') := by
  rw [bind_apply]
  constructor
  · intro h
    split at h
    next a s₁ hx => exact ⟨a, s₁, hx, h⟩
    next => cases h
  · rintro ⟨a, s₁, hx, h⟩
    rw [hx]
    exact h

theorem pure_eq_ok {s s' : σ} {a b : α} :
    (pure a : ExceptT ε (StateM σ) α) s = (.ok b, s') ↔ a = b ∧ s = s' := by
  show (Except.ok a, s) = (Except.ok b, s') ↔ _
  simp

theorem throw_ne_ok {e : ε} {s s' : σ} {a : α} :
    (throw e : ExceptT ε (StateM σ) α) s ≠ (.ok a, s') := by
  show (Except.error e, s) ≠ (Except.ok a, s')
  simp

/-- Work of which it was seen that it succeeds. -/
theorem exists_of_isOk {x : ExceptT ε (StateM σ) α} {s : σ} (h : (x s).1.isOk = true) :
    ∃ a s', x s = (.ok a, s') := by
  cases hx : x s with
  | mk result s' =>
    rw [hx] at h
    cases result with
    | ok a => exact ⟨a, s', rfl⟩
    | error e => cases h

theorem adapt_eq_ok {f : ε → ε'} {x : ExceptT ε (StateM σ) α} {s s' : σ} {a : α} :
    ExceptT.adapt f x s = (.ok a, s') ↔ x s = (.ok a, s') := by
  show ((x s).1.mapError f, (x s).2) = (Except.ok a, s') ↔ _
  cases hx : x s with
  | mk result s₁ =>
    cases result with
    | ok b => constructor <;> intro h <;> cases h <;> rfl
    | error e => exact ⟨nofun, nofun⟩

/-- What follows a look at the state works on the state that was seen. -/
theorem get_bind_apply (f : σ → ExceptT ε (StateM σ) β) (s : σ) : (get >>= f) s = f s s := by
  rw [bind_apply]
  rfl

theorem get_bind_eq_ok {f : σ → ExceptT ε (StateM σ) β} {s s' : σ} {b : β} :
    (get >>= f) s = (.ok b, s') ↔ f s s = (.ok b, s') := by
  rw [get_bind_apply]

theorem modify_eq_ok {f : σ → σ} {s s' : σ} {u : Unit} :
    (modify f : ExceptT ε (StateM σ) PUnit) s = (.ok u, s') ↔ f s = s' := by
  show (Except.ok (), f s) = (Except.ok u, s') ↔ _
  simp

/-- Work that goes on has not been stopped. -/
theorem ite_throw_eq_ok {p : Prop} [Decidable p] {e : ε} {x : ExceptT ε (StateM σ) α} {s s' : σ}
    {a : α} : (if p then throw e else x) s = (.ok a, s') ↔ ¬p ∧ x s = (.ok a, s') := by
  by_cases h : p
  · rw [if_pos h]
    exact ⟨fun hrun => absurd hrun throw_ne_ok, fun hnot => absurd h hnot.1⟩
  · rw [if_neg h]
    exact ⟨fun hrun => ⟨h, hrun⟩, fun hrun => hrun.2⟩

/-- A step that is not always taken. -/
theorem ite_bind_eq_ok {p : Prop} [Decidable p] {x : ExceptT ε (StateM σ) PUnit}
    {f : PUnit → ExceptT ε (StateM σ) β} {s s' : σ} {b : β} :
    (if p then x >>= f else f PUnit.unit) s = (.ok b, s') ↔
      ∃ s₁, (if p then x else pure PUnit.unit) s = (.ok PUnit.unit, s₁) ∧
        f PUnit.unit s₁ = (.ok b, s') := by
  by_cases h : p
  · rw [if_pos h, if_pos h, bind_eq_ok]
    exact ⟨fun ⟨_, s₁, hx, hf⟩ => ⟨s₁, hx, hf⟩, fun ⟨s₁, hx, hf⟩ => ⟨_, s₁, hx, hf⟩⟩
  · rw [if_neg h, if_neg h]
    constructor
    · exact fun hf => ⟨s, pure_eq_ok.2 ⟨rfl, rfl⟩, hf⟩
    · rintro ⟨s₁, hx, hf⟩
      obtain ⟨-, rfl⟩ := pure_eq_ok.1 hx
      exact hf

theorem ite_throw_bind_eq_ok {p : Prop} [Decidable p] {e : ε}
    {f : PUnit → ExceptT ε (StateM σ) β} {s s' : σ} {b : β} :
    (if p then throw e >>= f else f PUnit.unit) s = (.ok b, s') ↔
      ¬p ∧ f PUnit.unit s = (.ok b, s') := by
  by_cases h : p
  · rw [if_pos h]
    refine ⟨fun hrun => ?_, fun hnot => absurd h hnot.1⟩
    obtain ⟨_, _, hthrow, -⟩ := bind_eq_ok.1 hrun
    exact absurd hthrow throw_ne_ok
  · rw [if_neg h]
    exact ⟨fun hrun => ⟨h, hrun⟩, fun hrun => hrun.2⟩

theorem forM_cons_apply (f : α → ExceptT ε (StateM σ) PUnit) (a : α) (l : List α) (s : σ) :
    (a :: l).forM f s =
      match f a s with
      | (.ok _, s') => l.forM f s'
      | (.error e, s') => (.error e, s') := by
  show (f a >>= fun _ => l.forM f) s = _
  rw [bind_apply]
  cases f a s with
  | mk result s' => cases result <;> rfl

/-- Where every step fails there is no step, or the whole fails. -/
theorem forM_eq_error {f : α → ExceptT ε (StateM σ) PUnit} {l : List α} {s : σ}
    (h : ∀ a ∈ l, ∃ e, f a s = (.error e, s)) : l = [] ∨ ∃ e, l.forM f s = (.error e, s) := by
  cases l with
  | nil => exact Or.inl rfl
  | cons a l =>
    obtain ⟨e, he⟩ := h a List.mem_cons_self
    rw [forM_cons_apply, he]
    exact Or.inr ⟨e, rfl⟩

theorem forM_cons_eq_ok {f : α → ExceptT ε (StateM σ) PUnit} {a : α} {l : List α} {s s' : σ}
    {u : PUnit} : (a :: l).forM f s = (.ok u, s') ↔
      ∃ s₁, f a s = (.ok PUnit.unit, s₁) ∧ l.forM f s₁ = (.ok u, s') := by
  show (f a >>= fun _ => l.forM f) s = (.ok u, s') ↔ _
  rw [bind_eq_ok]
  exact ⟨fun ⟨_, s₁, hf, hl⟩ => ⟨s₁, hf, hl⟩, fun ⟨s₁, hf, hl⟩ => ⟨_, s₁, hf, hl⟩⟩

theorem forM_append_eq_ok {f : α → ExceptT ε (StateM σ) PUnit} {front rest : List α} {s s' : σ}
    {u : PUnit} : (front ++ rest).forM f s = (.ok u, s') ↔
      ∃ s₁, front.forM f s = (.ok PUnit.unit, s₁) ∧ rest.forM f s₁ = (.ok u, s') := by
  induction front generalizing s with
  | nil =>
    refine ⟨fun h => ⟨s, rfl, h⟩, ?_⟩
    rintro ⟨s₁, hfront, hrest⟩
    obtain ⟨-, rfl⟩ := pure_eq_ok.1 hfront
    exact hrest
  | cons a front ih =>
    rw [List.cons_append, forM_cons_eq_ok]
    simp only [ih, forM_cons_eq_ok]
    constructor
    · rintro ⟨s₁, ha, s₂, hfront, hrest⟩
      exact ⟨s₂, ⟨s₁, ha, hfront⟩, hrest⟩
    · rintro ⟨s₂, ⟨s₁, ha, hfront⟩, hrest⟩
      exact ⟨s₁, ha, s₂, hfront, hrest⟩

/-- Every step of work that has succeeded has. -/
theorem exists_of_forM_eq_ok {f : α → ExceptT ε (StateM σ) PUnit} {l : List α} {s s' : σ}
    {u : PUnit} (h : l.forM f s = (.ok u, s')) {a : α} (ha : a ∈ l) :
    ∃ s₁ s₂, f a s₁ = (.ok PUnit.unit, s₂) := by
  obtain ⟨front, rest, rfl⟩ := List.append_of_mem ha
  obtain ⟨s₁, -, hrest⟩ := forM_append_eq_ok.1 h
  obtain ⟨s₂, hstep, -⟩ := forM_cons_eq_ok.1 hrest
  exact ⟨s₁, s₂, hstep⟩

/-- Where every step succeeds and leaves the state as it is, so does the whole. -/
theorem forM_eq_ok_of_forall {f : α → ExceptT ε (StateM σ) PUnit} {l : List α} {s : σ}
    (h : ∀ a ∈ l, f a s = (.ok PUnit.unit, s)) : l.forM f s = (.ok PUnit.unit, s) := by
  induction l with
  | nil => rfl
  | cons a l ih =>
    rw [List.forall_mem_cons] at h
    exact forM_cons_eq_ok.2 ⟨s, h.1, ih h.2⟩

theorem mapM_cons_eq_ok {f : α → ExceptT ε (StateM σ) β} {a : α} {l : List α} {s s' : σ}
    {bs : List β} : (a :: l).mapM f s = (.ok bs, s') ↔
      ∃ b s₁ rest, f a s = (.ok b, s₁) ∧ l.mapM f s₁ = (.ok rest, s') ∧ bs = b :: rest := by
  rw [List.mapM_cons]
  simp only [bind_eq_ok, pure_eq_ok]
  constructor
  · rintro ⟨b, s₁, ha, rest, s₂, hl, rfl, rfl⟩
    exact ⟨b, s₁, rest, ha, hl, rfl⟩
  · rintro ⟨b, s₁, rest, ha, hl, rfl⟩
    exact ⟨b, s₁, ha, rest, s', hl, rfl, rfl⟩

theorem tryCatch_apply (x : ExceptT ε (StateM σ) α) (handle : ε → ExceptT ε (StateM σ) α) (s : σ) :
    tryCatch x handle s =
      match x s with
      | (.ok a, s') => (.ok a, s')
      | (.error e, s') => handle e s' := by
  show ((x.run >>= fun result => match result with
    | .ok a => pure (.ok a)
    | .error e => (handle e).run : StateM σ (Except ε α)) s) = _
  show (match (x s).1 with
    | .ok a => pure (.ok a)
    | .error e => (handle e).run : StateM σ (Except ε α)) (x s).2 = _
  cases hx : x s with
  | mk result s' => cases result <;> rfl

/-- Caught work has succeeded, or the work after its failure has. -/
theorem tryCatch_eq_ok {x : ExceptT ε (StateM σ) α} {handle : ε → ExceptT ε (StateM σ) α} {s s' : σ}
    {a : α} (h : tryCatch x handle s = (.ok a, s')) :
    x s = (.ok a, s') ∨ ∃ e s₁, x s = (.error e, s₁) ∧ handle e s₁ = (.ok a, s') := by
  rw [tryCatch_apply] at h
  cases hx : x s with
  | mk result s₁ =>
    rw [hx] at h
    cases result with
    | ok b => exact Or.inl h
    | error e => exact Or.inr ⟨e, s₁, rfl, h⟩

/-! ### Where work fails -/

/-- Work has failed where one of its steps has, after the others before it have succeeded. -/
theorem bind_eq_error {x : ExceptT ε (StateM σ) α} {f : α → ExceptT ε (StateM σ) β} {s s' : σ}
    {e : ε} :
    (x >>= f) s = (.error e, s') ↔
      x s = (.error e, s') ∨ ∃ a s₁, x s = (.ok a, s₁) ∧ f a s₁ = (.error e, s') := by
  rw [bind_apply]
  constructor
  · intro h
    split at h
    next a s₁ hx => exact Or.inr ⟨a, s₁, hx, h⟩
    next e' s₁ hx =>
      cases h
      exact Or.inl hx
  · rintro (hx | ⟨a, s₁, hx, h⟩)
    · rw [hx]
    · rw [hx]
      exact h

theorem adapt_eq_error {f : ε → ε'} {x : ExceptT ε (StateM σ) α} {s s' : σ} {e' : ε'}
    (h : ExceptT.adapt f x s = (.error e', s')) : ∃ e, x s = (.error e, s') ∧ f e = e' := by
  change ((x s).1.mapError f, (x s).2) = (Except.error e', s') at h
  cases hx : x s with
  | mk result s₁ =>
    rw [hx] at h
    cases result with
    | ok a => cases h
    | error e =>
      cases h
      exact ⟨e, rfl, rfl⟩

/-- Wherever the work fails, it fails with what satisfies a condition. -/
def FailsWith (P : ε → Prop) (work : ExceptT ε (StateM σ) α) : Prop :=
  ∀ s e s', work s = (.error e, s') → P e

namespace FailsWith

variable {P : ε → Prop}

theorem pure (a : α) : FailsWith P (Pure.pure a : ExceptT ε (StateM σ) α) := nofun

theorem get : FailsWith P (MonadState.get : ExceptT ε (StateM σ) σ) := nofun

theorem modify (f : σ → σ) : FailsWith P (modifyThe σ f : ExceptT ε (StateM σ) PUnit) := nofun

theorem throw {e : ε} (he : P e) : FailsWith P (MonadExcept.throw e : ExceptT ε (StateM σ) α) := by
  rintro s e' s' ⟨⟩
  exact he

theorem bind {x : ExceptT ε (StateM σ) α} {f : α → ExceptT ε (StateM σ) β} (hx : FailsWith P x)
    (hf : ∀ a, FailsWith P (f a)) : FailsWith P (x >>= f) := by
  intro s e s' h
  obtain hfirst | ⟨a, s₁, -, hrest⟩ := bind_eq_error.1 h
  · exact hx s e s' hfirst
  · exact hf a s₁ e s' hrest

theorem adapt {Q : ε' → Prop} {f : ε → ε'} {work : ExceptT ε (StateM σ) α} (h : FailsWith P work)
    (hf : ∀ e, P e → Q (f e)) : FailsWith Q (ExceptT.adapt f work) := by
  intro s e' s' hrun
  obtain ⟨e, hwork, rfl⟩ := adapt_eq_error hrun
  exact hf e (h s e s' hwork)

theorem ite {p : Prop} [Decidable p] {x y : ExceptT ε (StateM σ) α} (hx : FailsWith P x)
    (hy : FailsWith P y) : FailsWith P (if p then x else y) := by
  split
  · exact hx
  · exact hy

theorem mapM {f : α → ExceptT ε (StateM σ) β} (hf : ∀ a, FailsWith P (f a)) (l : List α) :
    FailsWith P (l.mapM f) := by
  induction l with
  | nil => exact pure []
  | cons a l ih =>
    rw [List.mapM_cons]
    exact bind (hf a) fun _ => bind ih fun _ => pure _

theorem forM {f : α → ExceptT ε (StateM σ) PUnit} (hf : ∀ a, FailsWith P (f a)) (l : List α) :
    FailsWith P (l.forM f) := by
  induction l with
  | nil => exact pure PUnit.unit
  | cons a l ih => exact bind (hf a) fun _ => ih

end FailsWith

/-! ### Whatever comes of it -/

/-- Whatever comes of the work, the states before and after are related. -/
def Moves (R : σ → σ → Prop) (work : ExceptT ε (StateM σ) α) : Prop := ∀ s, R s (work s).2

/-- What is true after the first part of work in any case, and after the second where the first has
succeeded, is true after the whole. -/
theorem after_bind {P : σ → Prop} {x : ExceptT ε (StateM σ) α} {f : α → ExceptT ε (StateM σ) β}
    {s : σ} (hfirst : P (x s).2) (hrest : ∀ a s₁, x s = (.ok a, s₁) → P s₁ → P (f a s₁).2) :
    P ((x >>= f) s).2 := by
  rw [bind_apply]
  cases hx : x s with
  | mk result s₁ =>
    rw [hx] at hfirst
    cases result with
    | ok a => exact hrest a s₁ hx hfirst
    | error e => exact hfirst

/-- What is true before is true after. -/
def Keeps (P : σ → Prop) (s s' : σ) : Prop := P s → P s'

instance (P : σ → Prop) : Std.Refl (Keeps P) where
  refl _ h := h

instance (P : σ → Prop) : IsTrans σ (Keeps P) where
  trans _ _ _ h h' hs := h' (h hs)

namespace Moves

variable {R : σ → σ → Prop}

theorem of_eq_ok {work : ExceptT ε (StateM σ) α} (h : Moves R work) {s s' : σ} {a : α}
    (hrun : work s = (.ok a, s')) : R s s' := by
  have hmoves := h s
  rwa [hrun] at hmoves

theorem ite {p : Prop} [Decidable p] {x y : ExceptT ε (StateM σ) α} (hx : p → Moves R x)
    (hy : ¬p → Moves R y) : Moves R (if p then x else y) := by
  split
  next h => exact hx h
  next h => exact hy h

section Refl

variable [Std.Refl R]

theorem pure (a : α) : Moves R (Pure.pure a : ExceptT ε (StateM σ) α) :=
  fun s => Std.Refl.refl s

theorem throw (e : ε) : Moves R (MonadExcept.throw e : ExceptT ε (StateM σ) α) :=
  fun s => Std.Refl.refl s

theorem get : Moves R (MonadState.get : ExceptT ε (StateM σ) σ) := fun s => Std.Refl.refl s

end Refl

theorem adapt {work : ExceptT ε (StateM σ) α} (h : Moves R work) (f : ε → ε') :
    Moves R (ExceptT.adapt f work) := h

section Trans

variable [IsTrans σ R]

theorem bind {x : ExceptT ε (StateM σ) α} {f : α → ExceptT ε (StateM σ) β} (hx : Moves R x)
    (hf : ∀ a, Moves R (f a)) : Moves R (x >>= f) := by
  intro s
  have hfirst := hx s
  rw [bind_apply]
  cases hrun : x s with
  | mk result s₁ =>
    rw [hrun] at hfirst
    cases result with
    | ok a => exact IsTrans.trans _ _ _ hfirst (hf a s₁)
    | error e => exact hfirst

theorem tryCatch {x : ExceptT ε (StateM σ) α} {handle : ε → ExceptT ε (StateM σ) α} (hx : Moves R x)
    (hhandle : ∀ e, Moves R (handle e)) : Moves R (MonadExcept.tryCatch x handle) := by
  intro s
  have hfirst := hx s
  rw [tryCatch_apply]
  cases hrun : x s with
  | mk result s₁ =>
    rw [hrun] at hfirst
    cases result with
    | ok a => exact hfirst
    | error e => exact IsTrans.trans _ _ _ hfirst (hhandle e s₁)

theorem mapM [Std.Refl R] {f : α → ExceptT ε (StateM σ) β} {l : List α}
    (h : ∀ a ∈ l, Moves R (f a)) : Moves R (l.mapM f) := by
  induction l with
  | nil => exact pure []
  | cons a l ih =>
    rw [List.forall_mem_cons] at h
    rw [List.mapM_cons]
    exact bind h.1 fun _ => bind (ih h.2) fun _ => pure _

theorem forM [Std.Refl R] {f : α → ExceptT ε (StateM σ) PUnit} {l : List α}
    (h : ∀ a ∈ l, Moves R (f a)) : Moves R (l.forM f) := by
  induction l with
  | nil => exact pure PUnit.unit
  | cons a l ih =>
    rw [List.forall_mem_cons] at h
    exact bind h.1 fun _ => ih h.2

end Trans

end Moves

end Branding
