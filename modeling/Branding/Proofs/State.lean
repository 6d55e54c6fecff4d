import Branding.Proofs.Files.Write
import Branding.State

/-!
# What resolving the brand leaves

A brand that is asked for is remembered at once, and this is all that is written: the state file, in
directories that may be new. A path that takes names back can make directories far from the file it
leads to, so these are described by the paths around it and not by its location.

## Main definitions

* `Tree.MadeAround` — a directory that was made on the way to a file

## Main results

* `State.moves_resolve` — a brand that is not to be remembered is not written
* `State.resolve_elsewhere` — whatever comes of it, nothing else becomes different
* `State.steps_of_resolve`, `State.resolve_eq_ok` — the brand of a run, and what has been written
-/

namespace Branding

/-- A directory was made that a path lies in. -/
def Tree.MadeAround (p : Path) (t t' : Tree) (l : Location) : Prop :=
  (∃ q ∈ p.enclosing, q.lexical = l) ∧ t.get? l = none ∧ t'.get? l = some .directory

namespace State

variable {P : Location → Prop} {t t' : Tree} {file : Path}

theorem brandOf_eq_ok {raw : String} {brand : Brand} (h : brandOf raw t = (.ok brand, t')) :
    brand.name = raw ∧ t = t' := by
  unfold brandOf at h
  cases hbrand : Brand.ofString? raw with
  | none =>
    rw [hbrand] at h
    exact absurd h throw_ne_ok
  | some found =>
    rw [hbrand] at h
    obtain ⟨rfl, rfl⟩ := pure_eq_ok.1 h
    exact ⟨Brand.ofString?_eq_some_iff.1 hbrand, rfl⟩

theorem moves_brandOf (raw : String) : Moves Eq (brandOf raw) := by
  unfold brandOf
  cases Brand.ofString? raw with
  | some brand => exact Moves.pure brand
  | none => exact Moves.throw _

/-- A brand that is not to be remembered at once is not written. -/
theorem moves_resolve (explicit : Option String) (file : Path) :
    Moves Eq (resolve explicit file false) := by
  cases explicit with
  | some raw => exact Moves.bind (moves_brandOf raw) fun brand => Moves.pure _
  | none =>
    refine Moves.bind Moves.get fun t => ?_
    cases brand? t file with
    | some raw => exact Moves.bind (moves_brandOf raw) fun brand => Moves.pure _
    | none => exact Moves.throw _

/-- A brand that is asked for is one, and is remembered where that is wanted. -/
theorem resolve_brand (brand : Brand) (file : Path) :
    resolve (some brand.name) file true = do
      remember file brand
      return ⟨brand, .explicit, true⟩ := by
  have hbrand : brandOf brand.name = pure brand := by
    rw [brandOf, Brand.ofString?_eq_some_iff.2 rfl]
  unfold resolve
  dsimp only
  rw [hbrand, pure_bind, if_pos rfl]

/-- What is not remembered is not written: not where nothing is to be remembered, nor where no brand
is asked for. -/
theorem moves_resolve_unsaved {explicit : Option String} {persist : Bool}
    (hnot : persist = false ∨ ∀ brand : Brand, explicit ≠ some brand.name) (file : Path) :
    Moves Eq (resolve explicit file persist) := by
  obtain rfl | hnot := hnot
  · exact moves_resolve explicit file
  cases explicit with
  | none => exact moves_resolve none file
  | some raw =>
    have hfail : brandOf raw = Files.fail (.badBrand raw) := by
      rw [brandOf]
      cases hbrand : Brand.ofString? raw with
      | none => rfl
      | some brand =>
        exact absurd (congrArg some (Brand.ofString?_eq_some_iff.1 hbrand).symm) (hnot brand)
    intro t
    unfold resolve
    dsimp only
    rw [hfail]
    rfl

/-- Resolving the brand does nothing to the files but to remember it. -/
theorem after_resolve {P : Tree → Prop} (explicit : Option String) (persist : Bool) (hbefore : P t)
    (hremember : ∀ brand, P (remember file brand t).2) : P (resolve explicit file persist t).2 := by
  have hbrand : ∀ raw, (brandOf raw t).2 = t := fun raw => (moves_brandOf raw t).symm
  cases explicit with
  | some raw =>
    refine after_bind (by rwa [hbrand]) fun brand s hrun _ => ?_
    obtain rfl : t = s := (moves_brandOf raw).of_eq_ok hrun
    cases persist with
    | true => exact after_bind (hremember brand) fun _ _ _ h => h
    | false => exact hbefore
  | none =>
    refine after_bind hbefore fun s s' hget _ => ?_
    cases hget
    cases brand? t file with
    | some raw => exact after_bind (by rwa [hbrand]) fun _ _ _ h => h
    | none => exact hbefore

theorem keepsWays_remember (file : Path) (brand : Brand) :
    Moves Tree.KeepsWays (remember file brand) :=
  Moves.bind Moves.get fun _ => Files.keepsWays_writeText file _

theorem keepsWays_resolve (explicit : Option String) (file : Path) (persist : Bool) (t : Tree) :
    t.KeepsWays (resolve explicit file persist t).2 :=
  after_resolve explicit persist (Std.Refl.refl t) fun _ => Files.keepsWays_writeText file _ t

theorem plain_resolve (explicit : Option String) (file : Path) (persist : Bool) (ht : t.Plain) :
    (resolve explicit file persist t).2.Plain :=
  after_resolve explicit persist ht fun _ => Files.plain_writeText file _ t ht

theorem named_resolve (explicit : Option String) (file : Path) (persist : Bool) (ht : t.Named) :
    (resolve explicit file persist t).2.Named :=
  after_resolve explicit persist ht fun _ => Files.named_writeText file _ t ht

/-- Nothing becomes different but the state file, and directories may be new. -/
theorem resolve_elsewhere (explicit : Option String) (file : Path) (persist : Bool) (m : Location) :
    (resolve explicit file persist t).2.get? m = t.get? m ∨
      t.get? m = none ∧ (resolve explicit file persist t).2.get? m = some .directory ∨
        ∃ e', (resolve explicit file persist t).2.find file = .ok (m, e') :=
  after_resolve (P := fun s : Tree => s.get? m = t.get? m ∨
    t.get? m = none ∧ s.get? m = some .directory ∨ ∃ e', s.find file = .ok (m, e'))
    explicit persist (Or.inl rfl) fun _ => Files.writeText_elsewhere file _ t m

/-- A brand that is remembered is written to the state file and nowhere else. -/
theorem remember_eq_ok (ht : t.Plain)
    (hP : ∀ q ∈ file.enclosing, ∀ r ∈ q :: q.enclosing, P r.lexical) {brand : Brand} {u : Unit}
    (h : remember file brand t = (.ok u, t')) :
    t'.Plain ∧ ∀ m, m ≠ file.lexical →
      t'.get? m = t.get? m ∨ P m ∧ t.get? m = none ∧ t'.get? m = some .directory := by
  have hrest := get_bind_eq_ok.1 h
  obtain ⟨t₁, ht₁, hgrows, -, hsets, -⟩ := Files.writeText_eq_ok ht hP hrest
  refine ⟨hsets.plain ht₁ (by simp) fun _ => Path.isName_of_mem_lexical, fun m hm => ?_⟩
  rw [hsets.elsewhere hm]
  exact hgrows m

/-- Besides the state file there may be directories that it lies in. -/
theorem remember_madeAround (ht : t.Plain) (hrooted : file.rooted = true) {brand : Brand} {u : Unit}
    (h : remember file brand t = (.ok u, t')) :
    t'.Plain ∧ ∀ m, m ≠ file.lexical → t'.get? m = t.get? m ∨ t.MadeAround file t' m := by
  refine remember_eq_ok (P := fun m => ∃ q ∈ file.enclosing, q.lexical = m) ht
    (fun q hq r hr => ?_) h
  rcases List.mem_cons.1 hr with rfl | hr
  · exact ⟨_, hq, rfl⟩
  · exact ⟨r, Path.mem_enclosing_trans hrooted hq hr, rfl⟩

/-- A state file that was written is found. -/
theorem remember_found {brand : Brand} {u : Unit} (h : remember file brand t = (.ok u, t')) :
    t'.isFile file = true := by
  obtain ⟨l, hfind⟩ := Files.writeText_found (get_bind_eq_ok.1 h)
  exact Tree.isFile_iff.2 ⟨l, _, hfind⟩

/-- A brand that is remembered is remembered in a file. -/
theorem isFile_of_brand? {raw : String} (h : brand? t file = some raw) : t.isFile file = true := by
  unfold brand? load at h
  cases hread : t.readBytes file with
  | ok bytes =>
    obtain ⟨l, hfind⟩ := Tree.exists_find_of_readBytes hread
    exact Tree.isFile_iff.2 ⟨l, bytes, hfind⟩
  | error r =>
    have htext : t.readText file = .error r := by rw [Tree.readText, hread]; rfl
    rw [htext] at h
    cases h

/-- A brand that is not asked for is one that is remembered. -/
theorem origin_of_resolve {explicit : Option String} {persist : Bool} {resolution : Resolution}
    (h : resolve explicit file persist t = (.ok resolution, t')) :
    resolution.origin = .explicit ∨ ∃ raw, brand? t file = some raw := by
  unfold resolve at h
  cases explicit with
  | some raw =>
    obtain ⟨brand, t₁, -, hrest⟩ := bind_eq_ok.1 h
    obtain ⟨t₂, -, hend⟩ := ite_bind_eq_ok.1 hrest
    obtain ⟨rfl, -⟩ := pure_eq_ok.1 hend
    exact Or.inl rfl
  | none =>
    have hrest := get_bind_eq_ok.1 h
    cases hremembered : brand? t file with
    | some raw => exact Or.inr ⟨raw, rfl⟩
    | none =>
      rw [hremembered] at hrest
      exact absurd hrest throw_ne_ok

/-- What a run leaves that remembers its brand, or has nothing to remember. -/
theorem remember_or_not {p : Prop} [Decidable p] (ht : t.Plain) (hrooted : file.rooted = true)
    {brand : Brand} (h : if p then ∃ u, remember file brand t = (.ok u, t') else t = t') :
    t'.Plain ∧ t.KeepsWays t' ∧
      ∀ m, m ≠ file.lexical → t'.get? m = t.get? m ∨ t.MadeAround file t' m := by
  split at h
  next =>
    obtain ⟨u, hremember⟩ := h
    obtain ⟨ht', hsaved⟩ := remember_madeAround ht hrooted hremember
    exact ⟨ht', (keepsWays_remember _ _).of_eq_ok hremember, hsaved⟩
  next =>
    subst h
    exact ⟨ht, Std.Refl.refl t, fun _ _ => Or.inl rfl⟩

/-- Where the state file is found there is nothing left to make around it. -/
theorem not_madeAround (ht : t.Plain) (hrooted : file.rooted = true) (hfound : t.isFile file = true)
    (l : Location) : ¬t.MadeAround file t' l := by
  rintro ⟨⟨q, hq, rfl⟩, hnone, -⟩
  obtain ⟨m, bytes, hfind⟩ := Tree.isFile_iff.1 hfound
  have hne : q.text ≠ "" := Path.text_ne_of_rooted ((Path.rooted_of_mem_enclosing hq).trans hrooted)
  obtain ⟨d, hdir⟩ := Tree.find_of_mem_enclosing hne hq hfind
  rw [(ht.find_eq_ok hdir).2.1] at hnone
  cases hnone

/-- The brand of a run is the one that is asked for, or else the one that was remembered. It is
remembered, or nothing is written. -/
theorem steps_of_resolve {explicit : Option String} {persist : Bool} {resolution : Resolution}
    (h : resolve explicit file persist t = (.ok resolution, t')) :
    explicit.or (brand? t file) = some resolution.brand.name ∧
      (t = t' ∨ ∃ u, remember file resolution.brand t = (.ok u, t')) := by
  unfold resolve at h
  cases explicit with
  | some raw =>
    obtain ⟨brand, t₁, hbrand, hrest⟩ := bind_eq_ok.1 h
    obtain ⟨hname, rfl⟩ := brandOf_eq_ok hbrand
    rw [Option.some_or]
    cases persist with
    | true =>
      obtain ⟨u, t₁, hremember, hend⟩ := bind_eq_ok.1 hrest
      obtain ⟨rfl, rfl⟩ := pure_eq_ok.1 hend
      exact ⟨by rw [hname], Or.inr ⟨u, hremember⟩⟩
    | false =>
      obtain ⟨rfl, rfl⟩ := pure_eq_ok.1 hrest
      exact ⟨by rw [hname], Or.inl rfl⟩
  | none =>
    have hrest := get_bind_eq_ok.1 h
    cases hremembered : brand? t file with
    | none =>
      rw [hremembered] at hrest
      exact absurd hrest throw_ne_ok
    | some raw =>
      rw [hremembered] at hrest
      obtain ⟨brand, t₁, hbrand, hend⟩ := bind_eq_ok.1 hrest
      obtain ⟨hname, rfl⟩ := brandOf_eq_ok hbrand
      obtain ⟨rfl, rfl⟩ := pure_eq_ok.1 hend
      exact ⟨by rw [Option.none_or, hname], Or.inl rfl⟩

/-- In a tree without links nothing is written but the state file, and directories around it. -/
theorem resolve_eq_ok (ht : t.Plain)
    (hP : ∀ q ∈ file.enclosing, ∀ r ∈ q :: q.enclosing, P r.lexical) {explicit : Option String}
    {persist : Bool} {resolution : Resolution}
    (h : resolve explicit file persist t = (.ok resolution, t')) :
    explicit.or (brand? t file) = some resolution.brand.name ∧ t'.Plain ∧
      ∀ m, m ≠ file.lexical →
        t'.get? m = t.get? m ∨ P m ∧ t.get? m = none ∧ t'.get? m = some .directory := by
  obtain ⟨hname, rfl | ⟨u, hremember⟩⟩ := steps_of_resolve h
  · exact ⟨hname, ht, fun _ _ => Or.inl rfl⟩
  · exact ⟨hname, remember_eq_ok ht hP hremember⟩

end State

end Branding
