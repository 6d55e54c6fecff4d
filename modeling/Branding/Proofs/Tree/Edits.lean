import Branding.Proofs.Tree.Plain
import Branding.Proofs.Work
import Branding.Tree.Edit

/-!
# What a change has done

A change of a tree without links that succeeds has changed one location, the one its path leads to
by its text, and the tree is without links afterwards. Making a directory with all that it lies in
is several changes, of which the first may stay when a later one is refused. But whatever comes of
it, it has made directories where there was nothing, and nothing else.

## Main definitions

* `Tree.Sets` — one location holds something else
* `Tree.Places` — the same, in directories that may be new
* `Tree.Grows` — directories where there was nothing, at some locations
* `Tree.Makes` — the same, for trees without links
* `Tree.putAll` — entries put in place, one after the other

## Main results

* `Edit.writeFile_eq_ok` — a file written
* `Edit.moves_makeEach_of`, `Edit.makeEach_found` — several directories
-/

namespace Branding

namespace Tree

/-- One location holds something else, or nothing any more, and every other holds what it held. -/
def Sets (t : Tree) (l : Location) (e : Option Entry) (t' : Tree) : Prop :=
  ∀ m, t'.get? m = if m = l then e else t.get? m

namespace Sets

variable {t t' : Tree} {l m : Location} {e : Option Entry}

theorem here (h : t.Sets l e t') : t'.get? l = e := by rw [h, if_pos rfl]

theorem elsewhere (h : t.Sets l e t') (hm : m ≠ l) : t'.get? m = t.get? m := by
  rw [h, if_neg hm]

/-- What is there already need not be put there. -/
theorem same (h : t.get? l = e) : t.Sets l e t := by
  intro m
  split
  next hm => rw [hm, h]
  next => rfl

theorem put {e : Entry} (h : t.accepts l = true) : t.Sets l (some e) (t.put l e) := by
  intro m
  rw [get?_put]
  by_cases hm : m = l
  · rw [if_pos ⟨h, hm.symm⟩, if_pos hm]
  · rw [if_neg fun hlm => hm hlm.2.symm, if_neg hm]

theorem drop (h : t.names l = []) (hne : l ≠ []) : t.Sets l none (t.drop l) := by
  intro m
  rw [get?_drop]
  by_cases hm : m = l
  · rw [if_pos ⟨h, hne, hm.symm⟩, if_pos hm]
  · rw [if_neg fun hlm => hm hlm.2.2.symm, if_neg hm]

/-- Every way is kept where no directory and no link is taken away. -/
theorem keepsWays (h : t.Sets l e t')
    (he : ∀ e', t.get? l = some e' → (∀ bytes, e' ≠ .file bytes) → e = some e') :
    t.KeepsWays t' := by
  intro m e' hm hfile
  by_cases heq : m = l
  · subst heq
    rw [h.here, he e' hm hfile]
  · rw [h.elsewhere heq, hm]

theorem named (h : t.Sets l e t') (ht : t.Named) (hl : ∀ name ∈ l, IsName name) : t'.Named where
  isName {m name e'} hm := by
    rw [h] at hm
    split at hm
    next heq => exact hl name (heq ▸ by simp)
    next => exact ht.isName hm

/-- A tree without links is without links after a change that puts none there. -/
theorem plain (h : t.Sets l e t') (ht : t.Plain) (he : ∀ target, e ≠ some (.link target))
    (hl : ∀ name ∈ l, IsName name) : t'.Plain where
  no_link m target hm := by
    rw [h] at hm
    split at hm
    · exact he target hm
    · exact ht.no_link m target hm
  isName := (h.named ht.named hl).isName

end Sets

theorem Plain.put {t : Tree} (ht : t.Plain) {l : Location} {e : Entry}
    (he : ∀ target, e ≠ .link target) (hl : ∀ name ∈ l, IsName name) : (t.put l e).Plain := by
  by_cases h : t.accepts l = true
  · exact (Sets.put h).plain ht (fun target heq => he target (Option.some.inj heq)) hl
  · rwa [Tree.put, dif_neg h]

theorem Named.put {t : Tree} (ht : t.Named) {l : Location} {e : Entry}
    (hl : ∀ name ∈ l, IsName name) : (t.put l e).Named := by
  by_cases h : t.accepts l = true
  · exact (Sets.put h).named ht hl
  · rwa [Tree.put, dif_neg h]

theorem get?_empty {l : Location} (h : l ≠ []) : (∅ : Tree).get? l = none := by
  rw [get?, if_neg h]
  exact Std.ExtTreeMap.getElem?_empty

theorem plain_empty : (∅ : Tree).Plain where
  no_link l target h := by
    by_cases hl : l = []
    · rw [hl, get?_nil] at h
      cases h
    · rw [get?_empty hl] at h
      cases h
  isName h := by
    rw [get?_empty (by simp)] at h
    cases h

/-- A tree with entries put in place, one after the other. -/
def putAll (t : Tree) (entries : List (Location × Entry)) : Tree :=
  entries.foldl (fun s p => s.put p.1 p.2) t

section PutAll

variable {t : Tree} {entries : List (Location × Entry)}

/-- What a location holds it has held before, or it is one of the entries. -/
theorem get?_putAll (t : Tree) (entries : List (Location × Entry)) (l : Location) :
    (t.putAll entries).get? l = t.get? l ∨
      ∃ e, (l, e) ∈ entries ∧ (t.putAll entries).get? l = some e := by
  induction entries generalizing t with
  | nil => exact Or.inl rfl
  | cons p entries ih =>
    show ((t.put p.1 p.2).putAll entries).get? l = _ ∨
      ∃ e, _ ∧ ((t.put p.1 p.2).putAll entries).get? l = _
    obtain hkept | ⟨e, hmem, he⟩ := ih (t.put p.1 p.2)
    · rw [hkept, get?_put]
      split
      next hput => exact Or.inr ⟨p.2, hput.2 ▸ List.mem_cons_self, rfl⟩
      next => exact Or.inl rfl
    · exact Or.inr ⟨e, List.mem_cons_of_mem p hmem, he⟩

theorem Named.putAll (ht : t.Named) (hnames : ∀ p ∈ entries, ∀ name ∈ p.1, IsName name) :
    (t.putAll entries).Named := by
  induction entries generalizing t with
  | nil => exact ht
  | cons p entries ih =>
    rw [List.forall_mem_cons] at hnames
    exact ih (ht.put hnames.1) hnames.2

theorem Plain.putAll (ht : t.Plain) (hlinks : ∀ p ∈ entries, ∀ target, p.2 ≠ .link target)
    (hnames : ∀ p ∈ entries, ∀ name ∈ p.1, IsName name) : (t.putAll entries).Plain := by
  induction entries generalizing t with
  | nil => exact ht
  | cons p entries ih =>
    rw [List.forall_mem_cons] at hlinks hnames
    exact ih (ht.put hlinks.1 hnames.1) hlinks.2 hnames.2

end PutAll

/-- One location holds an entry, above it are directories, and every other location holds what it
held. -/
def Places (t : Tree) (l : Location) (e : Entry) (t' : Tree) : Prop :=
  ∀ m, t'.get? m = if m = l then some e else if m <+: l then some .directory else t.get? m

namespace Places

variable {t t' : Tree} {l m : Location} {e e' : Entry}

/-- Where something has been, directories are above it already. -/
theorem iff_sets (hl : t.get? l = some e') : t.Places l e t' ↔ t.Sets l (some e) t' := by
  refine forall_congr' fun m => ?_
  by_cases hm : m = l
  · rw [if_pos hm, if_pos hm]
  rw [if_neg hm, if_neg hm]
  by_cases hle : m <+: l
  · rw [if_pos hle, get?_eq_directory_of_prefix hl hle hm]
  · rw [if_neg hle]

/-- What is there already need not be put there. -/
theorem same (h : t.get? l = some e) : t.Places l e t := (iff_sets h).2 (.same h)

end Places

/-- Many changes, one after another. Where two of them are to the same location they put the same
there. -/
theorem forM_sets {ε α : Type} {f : α → ExceptT ε (StateM Tree) PUnit} {place : α → Location}
    {value : α → Option Entry} {P : Tree → Prop} {Q : α → Prop} {l : List α}
    (hstep : ∀ a ∈ l, ∀ s s', P s → f a s = (.ok PUnit.unit, s') →
      P s' ∧ Q a ∧ s.Sets (place a) (value a) s')
    (hvalue : ∀ a ∈ l, ∀ b ∈ l, place a = place b → value a = value b) {t t' : Tree} {u : PUnit}
    (h : l.forM f t = (.ok u, t')) (ht : P t) :
    P t' ∧ (∀ a ∈ l, Q a ∧ t'.get? (place a) = value a) ∧
      ∀ m, (∀ a ∈ l, place a ≠ m) → t'.get? m = t.get? m := by
  induction l generalizing t with
  | nil =>
    obtain ⟨-, rfl⟩ := pure_eq_ok.1 h
    exact ⟨ht, by simp, fun _ _ => rfl⟩
  | cons a l ih =>
    obtain ⟨t₁, ha, hl⟩ := forM_cons_eq_ok.1 h
    obtain ⟨ht₁, hQ, hsets⟩ := hstep a (by simp) t t₁ ht ha
    obtain ⟨ht', hthere, hrest⟩ := ih (fun b hb => hstep b (by simp [hb]))
      (fun b hb c hc => hvalue b (by simp [hb]) c (by simp [hc])) hl ht₁
    refine ⟨ht', ?_, fun m hm => ?_⟩
    · rw [List.forall_mem_cons]
      refine ⟨⟨hQ, ?_⟩, hthere⟩
      by_cases hagain : ∃ b ∈ l, place b = place a
      · obtain ⟨b, hb, heq⟩ := hagain
        rw [← heq, (hthere b hb).2]
        exact hvalue b (by simp [hb]) a (by simp) heq
      · rw [hrest _ fun b hb heq => hagain ⟨b, hb, heq⟩, hsets.here]
    · rw [List.forall_mem_cons] at hm
      rw [hrest m hm.2, hsets.elsewhere hm.1.symm]

theorem names_eq_nil {t : Tree} {l : Location} (h : t.get? l ≠ some .directory) :
    t.names l = [] := by
  rw [List.eq_nil_iff_forall_not_mem]
  intro name hname
  obtain ⟨e, he⟩ :=
    Option.isSome_iff_exists.1 (Std.ExtTreeMap.isSome_getElem?_iff_mem.2 (mem_names.1 hname))
  have hget : t.get? (l ++ [name]) = some e := by simpa [get?] using he
  exact h (get?_eq_directory hget (by simp))

end Tree

namespace Edit

variable {t t' : Tree} {p : Path}

theorem land_apply (mode : LastName) (p : Path) (t : Tree) :
    land mode p t = (t.land mode p, t) := by
  show land.liftExcept (t.land mode p) t = _
  cases t.land mode p <;> rfl

/-- A location that is occupied by no directory can take an entry. -/
theorem accepts_of_get? {l : Location} {e : Entry} (h : t.get? l = some e) (he : e ≠ .directory) :
    t.accepts l = true := by
  rcases List.eq_nil_or_concat l with rfl | ⟨front, name, rfl⟩
  · cases h
    exact absurd rfl he
  · rw [List.concat_eq_append] at h ⊢
    have hdir := Tree.isDirectoryAt_of_get? h
    have hnot : t.isDirectoryAt (front ++ [name]) = false := by
      rw [Bool.eq_false_iff, Ne, Tree.isDirectoryAt_iff, h]
      simpa using he
    simp [Tree.accepts, hdir, hnot]

/-! ### Where a change is made -/

theorem makeDirectory_apply (p : Path) (t : Tree) :
    makeDirectory p t =
      match t.land .name p with
      | .error r => (.error r, t)
      | .ok (.free l) => (.ok (), t.put l .directory)
      | .ok (.occupied _ _) => (.error .present, t) := by
  rw [makeDirectory, bind_apply, land_apply]
  cases t.land .name p with
  | error r => rfl
  | ok landing => cases landing <;> rfl

/-- A directory is made where nothing has its name, or nothing becomes different. -/
theorem makeDirectory_cases (p : Path) (t : Tree) :
    (∃ l, t.land .name p = .ok (.free l) ∧
        makeDirectory p t = (.ok (), t.put l .directory) ∧
          t.Sets l (some .directory) (t.put l .directory)) ∨
      ∃ r, makeDirectory p t = (.error r, t) := by
  rw [makeDirectory_apply]
  cases hland : t.land .name p with
  | error r => exact Or.inr ⟨r, rfl⟩
  | ok landing =>
    cases landing with
    | occupied l e => exact Or.inr ⟨.present, rfl⟩
    | free l => exact Or.inl ⟨l, rfl, rfl, .put (Tree.accepts_of_land_free hland).2⟩

/-- A file is written where its path leads, unless to a directory, or nothing becomes different. -/
theorem writeFile_cases (p : Path) (bytes : ByteArray) (t : Tree) :
    (∃ landing, t.land .create p = .ok landing ∧ t.get? landing.location ≠ some .directory ∧
        writeFile p bytes t = (.ok (), t.put landing.location (.file bytes)) ∧
          t.Sets landing.location (some (.file bytes)) (t.put landing.location (.file bytes))) ∨
      ∃ r, writeFile p bytes t = (.error r, t) := by
  rw [writeFile, bind_apply, land_apply]
  cases hland : t.land .create p with
  | error r => exact Or.inr ⟨r, rfl⟩
  | ok landing =>
    cases landing with
    | free l =>
      obtain ⟨hnone, haccepts⟩ := Tree.accepts_of_land_free hland
      exact Or.inl ⟨.free l, rfl, by simp [Landing.location, hnone], rfl, .put haccepts⟩
    | occupied l e =>
      have hget : t.get? l = some e := Tree.get?_of_land_occupied hland
      by_cases he : e = .directory
      · subst he
        exact Or.inr ⟨.isDirectory, rfl⟩
      · refine Or.inl ⟨.occupied l e, rfl, by simpa [Landing.location, hget] using he, ?_,
          .put (accepts_of_get? hget he)⟩
        cases e with
        | directory => exact absurd rfl he
        | file _ | link _ => rfl

theorem unlink_apply (p : Path) (t : Tree) :
    unlink p t =
      match t.land .name p with
      | .error r => (.error r, t)
      | .ok (.free _) => (.error .absent, t)
      | .ok (.occupied l e) =>
        if e = .directory then (.error .isDirectory, t)
        else if p.segments.getLast? = some "" then (.error .notDirectory, t)
        else (.ok (), t.drop l) := by
  rw [unlink, bind_apply, land_apply]
  cases t.land .name p with
  | error r => rfl
  | ok landing =>
    cases landing with
    | free l => rfl
    | occupied l e =>
      cases e with
      | directory => rfl
      | file _ | link _ =>
        simp only [reduceCtorEq, if_false]
        split <;> rfl

theorem unlink_of_land {p : Path} {t : Tree} {l : Location} {e : Entry}
    (hland : t.land .name p = .ok (.occupied l e)) (he : e ≠ .directory)
    (hslash : p.segments.getLast? ≠ some "") : unlink p t = (.ok (), t.drop l) := by
  rw [unlink_apply, hland]
  simp only [if_neg he, if_neg hslash]

/-- A file or a link is taken away, or nothing becomes different. -/
theorem unlink_cases (p : Path) (t : Tree) :
    (∃ l e, t.land .name p = .ok (.occupied l e) ∧ e ≠ .directory ∧
        unlink p t = (.ok (), t.drop l) ∧ t.Sets l none (t.drop l)) ∨
      ∃ r, unlink p t = (.error r, t) := by
  rw [unlink_apply]
  cases hland : t.land .name p with
  | error r => exact Or.inr ⟨r, rfl⟩
  | ok landing =>
    cases landing with
    | free l => exact Or.inr ⟨.absent, rfl⟩
    | occupied l e =>
      by_cases he : e = .directory
      · exact Or.inr ⟨.isDirectory, if_pos he⟩
      by_cases hslash : p.segments.getLast? = some ""
      · exact Or.inr ⟨.notDirectory, by simp only [if_neg he, if_pos hslash]⟩
      have hget : t.get? l = some e := Tree.get?_of_land_occupied hland
      have hne : l ≠ [] := by
        rintro rfl
        rw [Tree.get?_nil] at hget
        exact he (Option.some.inj hget).symm
      have hnot : t.get? l ≠ some .directory := by simpa [hget] using he
      exact Or.inl ⟨l, e, rfl, he, by simp only [if_neg he, if_neg hslash],
        Tree.Sets.drop (Tree.names_eq_nil hnot) hne⟩

theorem removeDirectory_apply (p : Path) (t : Tree) :
    removeDirectory p t =
      match t.land .name p with
      | .error r => (.error r, t)
      | .ok (.free _) => (.error .absent, t)
      | .ok (.occupied l e) =>
        if e ≠ .directory then (.error .notDirectory, t)
        else if lastWritten? p = some "." then (.error .invalid, t)
        else if lastWritten? p = some ".." then (.error .notEmpty, t)
        else if l = [] then (.error .busy, t)
        else if t.names l = [] then (.ok (), t.drop l)
        else (.error .notEmpty, t) := by
  rw [removeDirectory, bind_apply, land_apply]
  cases t.land .name p with
  | error r => rfl
  | ok landing =>
    cases landing with
    | free l => rfl
    | occupied l e =>
      cases e with
      | file _ | link _ => rfl
      | directory =>
        simp only [ne_eq, not_true_eq_false, if_false]
        split
        · rfl
        split
        · rfl
        split
        · rfl
        rw [bind_apply]
        show (if t.names l = [] then _ else _ : Edit Unit) t = _
        split <;> rfl

/-- An empty directory other than the root is taken away, by its name. -/
theorem removeDirectory_eq_ok_iff {p : Path} {t t' : Tree} :
    removeDirectory p t = (.ok (), t') ↔
      ∃ l, t.land .name p = .ok (.occupied l .directory) ∧ lastWritten? p ≠ some "." ∧
        lastWritten? p ≠ some ".." ∧ l ≠ [] ∧ t.names l = [] ∧ t.drop l = t' := by
  constructor
  · intro h
    rw [removeDirectory_apply] at h
    cases hland : t.land .name p with
    | error r =>
      rw [hland] at h
      cases h
    | ok landing =>
      rw [hland] at h
      cases landing with
      | free l => cases h
      | occupied l e =>
        simp only at h
        split at h
        · cases h
        next hdir =>
          split at h
          · cases h
          next hdot =>
            split at h
            · cases h
            next hup =>
              split at h
              · cases h
              next hroot =>
                split at h
                next hempty =>
                  obtain rfl := not_ne_iff.1 hdir
                  cases h
                  exact ⟨l, rfl, hdot, hup, hroot, hempty, rfl⟩
                next => cases h
  · rintro ⟨l, hland, hdot, hup, hroot, hempty, rfl⟩
    rw [removeDirectory_apply, hland]
    simp only [ne_eq, not_true_eq_false, if_false, if_neg hdot, if_neg hup, if_neg hroot,
      if_pos hempty]

/-- An empty directory is taken away, or nothing becomes different. -/
theorem removeDirectory_cases (p : Path) (t : Tree) :
    (∃ l, t.land .name p = .ok (.occupied l .directory) ∧ l ≠ [] ∧ t.names l = [] ∧
        removeDirectory p t = (.ok (), t.drop l) ∧ t.Sets l none (t.drop l)) ∨
      ∃ r, removeDirectory p t = (.error r, t) := by
  rw [removeDirectory_apply]
  cases hland : t.land .name p with
  | error r => exact Or.inr ⟨r, rfl⟩
  | ok landing =>
    cases landing with
    | free l => exact Or.inr ⟨.absent, rfl⟩
    | occupied l e =>
      by_cases he : e = .directory
      · subst he
        simp only [ne_eq, not_true_eq_false, if_false]
        split
        · exact Or.inr ⟨_, rfl⟩
        split
        · exact Or.inr ⟨_, rfl⟩
        split
        · exact Or.inr ⟨_, rfl⟩
        next hne =>
          split
          next hempty => exact Or.inl ⟨l, rfl, hne, hempty, rfl, .drop hempty hne⟩
          next => exact Or.inr ⟨_, rfl⟩
      · exact Or.inr ⟨.notDirectory, if_pos he⟩

/-! ### Whatever comes of a change -/

section Moves

variable {R : Tree → Tree → Prop} [Std.Refl R]

theorem moves_makeDirectory_of
    (h : ∀ t l, t.land .name p = .ok (.free l) → t.Sets l (some .directory) (t.put l .directory) →
      R t (t.put l .directory)) : Moves R (makeDirectory p) := by
  intro t
  rcases makeDirectory_cases p t with ⟨l, hland, hrun, hsets⟩ | ⟨r, hrun⟩
  · rw [hrun]
    exact h t l hland hsets
  · rw [hrun]
    exact Std.Refl.refl t

theorem moves_writeFile_of {bytes : ByteArray}
    (h : ∀ t landing, t.land .create p = .ok landing → t.get? landing.location ≠ some .directory →
      t.Sets landing.location (some (.file bytes)) (t.put landing.location (.file bytes)) →
      R t (t.put landing.location (.file bytes))) : Moves R (writeFile p bytes) := by
  intro t
  rcases writeFile_cases p bytes t with ⟨landing, hland, hnot, hrun, hsets⟩ | ⟨r, hrun⟩
  · rw [hrun]
    exact h t landing hland hnot hsets
  · rw [hrun]
    exact Std.Refl.refl t

theorem moves_unlink_of
    (h : ∀ t l e, t.land .name p = .ok (.occupied l e) → e ≠ .directory →
      t.Sets l none (t.drop l) → R t (t.drop l)) : Moves R (unlink p) := by
  intro t
  rcases unlink_cases p t with ⟨l, e, hland, he, hrun, hsets⟩ | ⟨r, hrun⟩
  · rw [hrun]
    exact h t l e hland he hsets
  · rw [hrun]
    exact Std.Refl.refl t

theorem moves_removeDirectory_of
    (h : ∀ t l, t.land .name p = .ok (.occupied l .directory) → t.Sets l none (t.drop l) →
      R t (t.drop l)) : Moves R (removeDirectory p) := by
  intro t
  rcases removeDirectory_cases p t with ⟨l, hland, -, -, hrun, hsets⟩ | ⟨r, hrun⟩
  · rw [hrun]
    exact h t l hland hsets
  · rw [hrun]
    exact Std.Refl.refl t

theorem moves_orThere (r : Refusal) : Moves R (makeEach.orThere p r) := by
  intro t
  show R t ((if t.isDirectory p = true then pure () else throw r : Edit Unit) t).2
  split
  · exact Std.Refl.refl t
  · exact Std.Refl.refl t

/-- What each directory keeps when it is made is kept by all of them. -/
theorem moves_makeEach_of [IsTrans Tree R] {ps : List Path}
    (h : ∀ p ∈ ps, Moves R (makeDirectory p)) : Moves R (makeEach ps) := by
  induction ps with
  | nil => exact Moves.pure _
  | cons p outer ih =>
    rw [List.forall_mem_cons] at h
    refine Moves.ite (fun _ => Moves.pure _) fun _ => ?_
    refine Moves.tryCatch h.1 fun r => Moves.ite (fun _ => ?_) fun _ => moves_orThere r
    exact Moves.bind (ih h.2) fun _ => Moves.tryCatch h.1 fun r => moves_orThere r

end Moves

/-! ### What is never taken away -/

theorem keepsWays_makeDirectory (p : Path) : Moves Tree.KeepsWays (makeDirectory p) := by
  refine moves_makeDirectory_of fun t l hland hsets => ?_
  have hnone := (Tree.accepts_of_land_free hland).1
  exact hsets.keepsWays (by simp [hnone])

theorem keepsWays_writeFile (p : Path) (bytes : ByteArray) :
    Moves Tree.KeepsWays (writeFile p bytes) := by
  refine moves_writeFile_of fun t landing hland hnot hsets => hsets.keepsWays fun e' he' hfile => ?_
  obtain ⟨-, hlands⟩ := Tree.land_eq_ok_iff.1 hland
  cases landing with
  | free l =>
    have hnone := (Tree.accepts_of_land_free hland).1
    rw [show t.get? l = _ from he'] at hnone
    cases hnone
  | occupied l e =>
    have hget : t.get? l = some e := Tree.get?_of_land_occupied hland
    cases (show t.get? l = _ from he').symm.trans hget
    cases e' with
    | directory => exact absurd hget hnot
    | file bytes => exact absurd rfl (hfile bytes)
    | link target => exact absurd hlands (Tree.Lands.ne_link rfl)

theorem within_makeDirectory (p : Path) : Moves Tree.Within (makeDirectory p) := by
  refine moves_makeDirectory_of fun t l hland hsets m e he => ?_
  rw [hsets.elsewhere, he]
  rintro rfl
  rw [(Tree.accepts_of_land_free hland).1] at he
  cases he

/-- A file that was written is found, and writing it again changes nothing. -/
theorem writeFile_steady {bytes : ByteArray} {u : Unit} (h : writeFile p bytes t = (.ok u, t')) :
    ∃ l, t'.find p = .ok (l, .file bytes) ∧ t.Sets l (some (.file bytes)) t' ∧
      writeFile p bytes t' = (.ok (), t') := by
  have hways := (keepsWays_writeFile p bytes).of_eq_ok h
  rcases writeFile_cases p bytes t with ⟨landing, hland, hnot, hrun, hsets⟩ | ⟨r, hrun⟩
  · rw [hrun] at h
    cases h
    obtain ⟨hadm, hlands⟩ := Tree.land_eq_ok_iff.1 hland
    have hfile : ∀ m, landing ≠ .occupied m .directory := by
      rintro d rfl
      exact hnot (Tree.get?_of_land_occupied hland)
    refine ⟨_, Tree.find_eq_ok_iff.2 ⟨hadm, hlands.of_create (.inl rfl) hways hfile hsets.here⟩,
      hsets, ?_⟩
    -- the same entry is put where it is
    rw [writeFile, bind_apply, land_apply, Tree.land_eq_ok_iff.2
      ⟨hadm, hlands.of_create (.inr rfl) hways hfile hsets.here⟩]
    refine Prod.ext rfl (Tree.ext_get? fun m => ?_)
    show ((t.put landing.location (.file bytes)).put landing.location (.file bytes)).get? m = _
    rw [Tree.get?_put]
    split
    next heq => rw [← heq.2, hsets.here]
    next => rfl
  · rw [hrun] at h
    cases h

/-- A file that was written is found. -/
theorem writeFile_found {bytes : ByteArray} {u : Unit} (h : writeFile p bytes t = (.ok u, t')) :
    ∃ l, t'.find p = .ok (l, .file bytes) ∧ t.Sets l (some (.file bytes)) t' := by
  obtain ⟨l, hfind, hsets, -⟩ := writeFile_steady h
  exact ⟨l, hfind, hsets⟩

/-- Nothing becomes different but what is found by the path. -/
theorem writeFile_elsewhere (p : Path) (bytes : ByteArray) (t : Tree) (m : Location) :
    (writeFile p bytes t).2.get? m = t.get? m ∨
      ∃ e', (writeFile p bytes t).2.find p = .ok (m, e') := by
  rcases writeFile_cases p bytes t with ⟨landing, -, -, hrun, -⟩ | ⟨r, hrun⟩
  · obtain ⟨l, hfind, hsets⟩ := writeFile_found hrun
    rw [hrun]
    by_cases hm : m = l
    · exact Or.inr ⟨_, hm ▸ hfind⟩
    · exact Or.inl (hsets.elsewhere hm)
  · rw [hrun]
    exact Or.inl rfl

/-! ### Names that stand for themselves -/

theorem named_makeDirectory (p : Path) : Moves (Keeps Tree.Named) (makeDirectory p) :=
  moves_makeDirectory_of fun _ _ hland hsets ht => hsets.named ht (Tree.land_isName hland)

theorem named_writeFile (p : Path) (bytes : ByteArray) :
    Moves (Keeps Tree.Named) (writeFile p bytes) :=
  moves_writeFile_of fun _ _ hland _ hsets ht => hsets.named ht (Tree.land_isName hland)

/-! ### No links -/

theorem plain_makeDirectory (p : Path) : Moves (Keeps Tree.Plain) (makeDirectory p) :=
  moves_makeDirectory_of fun _ _ hland hsets ht => hsets.plain ht (by simp) (Tree.land_isName hland)

theorem plain_writeFile (p : Path) (bytes : ByteArray) :
    Moves (Keeps Tree.Plain) (writeFile p bytes) :=
  moves_writeFile_of fun _ _ hland _ hsets ht => hsets.plain ht (by simp) (Tree.land_isName hland)

/-! ### A directory that is there in the end -/

theorem makeDirectory_found {u : Unit} (h : makeDirectory p t = (.ok u, t')) :
    ∃ l, t'.find p = .ok (l, .directory) := by
  have hways := (keepsWays_makeDirectory p).of_eq_ok h
  rcases makeDirectory_cases p t with ⟨l, hland, hrun, hsets⟩ | ⟨r, hrun⟩
  · rw [hrun] at h
    cases h
    obtain ⟨hadm, hlands⟩ := Tree.land_eq_ok_iff.1 hland
    exact ⟨l, Tree.find_directory_iff.2 ⟨hadm, hlands.leads_of_free hways hsets.here⟩⟩
  · rw [hrun] at h
    cases h

theorem orThere_found {r : Refusal} {u : Unit} (h : makeEach.orThere p r t = (.ok u, t')) :
    ∃ l, t'.find p = .ok (l, .directory) := by
  have hrest := get_bind_eq_ok.1 h
  by_cases hdir : t.isDirectory p = true
  · rw [if_pos hdir] at hrest
    obtain ⟨-, rfl⟩ := pure_eq_ok.1 hrest
    exact Tree.isDirectory_iff.1 hdir
  · rw [if_neg hdir] at hrest
    exact absurd hrest throw_ne_ok

/-- A directory that was made, or was there, is there. -/
theorem makeEach_found {outer : List Path} (hne : p.text ≠ "") {u : Unit}
    (h : makeEach (p :: outer) t = (.ok u, t')) : ∃ l, t'.find p = .ok (l, .directory) := by
  rw [makeEach, if_neg hne] at h
  rcases tryCatch_eq_ok h with h | ⟨r, t₁, -, h⟩
  · exact makeDirectory_found h
  split at h
  · obtain ⟨u', t₂, -, h⟩ := bind_eq_ok.1 h
    rcases tryCatch_eq_ok h with h | ⟨r', t₃, -, h⟩
    · exact makeDirectory_found h
    · exact orThere_found h
  · exact orThere_found h

theorem writeFile_eq_ok (ht : t.Plain) {bytes : ByteArray} {u : Unit}
    (h : writeFile p bytes t = (.ok u, t')) :
    t.get? p.lexical ≠ some .directory ∧ t.Sets p.lexical (some (.file bytes)) t' ∧
      p.Admissible := by
  rcases writeFile_cases p bytes t with ⟨landing, hland, hnot, hrun, hsets⟩ | ⟨r, hrun⟩
  · obtain ⟨hlocation, hadm⟩ := ht.land_location hland
    rw [hrun] at h
    cases h
    rw [hlocation] at hnot hsets
    exact ⟨hnot, hlocation ▸ hsets, hadm⟩
  · rw [hrun] at h
    cases h

end Edit

/-! ### Several directories -/

namespace Tree

/-- Directories have been made where there was nothing, at some locations, and nothing else. -/
def Grows (P : Location → Prop) (t t' : Tree) : Prop :=
  ∀ m, t'.get? m = t.get? m ∨ P m ∧ t.get? m = none ∧ t'.get? m = some .directory

namespace Grows

variable {P Q : Location → Prop} {t t' t'' : Tree}

theorem refl (P : Location → Prop) (t : Tree) : Grows P t t := fun _ => Or.inl rfl

theorem trans (h : Grows P t t') (h' : Grows P t' t'') : Grows P t t'' := by
  intro m
  rcases h' m with h' | ⟨hP, hnone, hdir⟩
  · rw [h']
    exact h m
  · rcases h m with h | ⟨-, -, hdir'⟩
    · exact Or.inr ⟨hP, h ▸ hnone, hdir⟩
    · rw [hdir'] at hnone
      cases hnone

/-- What is there stays there. -/
theorem get?_of_eq_some (h : Grows P t t') {m : Location} {e : Entry} (hm : t.get? m = some e) :
    t'.get? m = some e := by
  rcases h m with h | ⟨-, hnone, -⟩
  · rw [h, hm]
  · rw [hm] at hnone
    cases hnone

theorem of_sets {l : Location} (hP : P l) (hnone : t.get? l = none)
    (h : t.Sets l (some .directory) t') : Grows P t t' := by
  intro m
  by_cases hm : m = l
  · subst hm
    exact Or.inr ⟨hP, hnone, h.here⟩
  · exact Or.inl (h.elsewhere hm)

theorem get?_of_not (h : Grows P t t') {m : Location} (hm : ¬P m) : t'.get? m = t.get? m :=
  (h m).resolve_right fun hP => hm hP.1

end Grows

instance (P : Location → Prop) : Std.Refl (Grows P) where
  refl t := .refl P t

instance (P : Location → Prop) : IsTrans Tree (Grows P) where
  trans _ _ _ h h' := h.trans h'

/-- In a tree without links directories have been made where there was nothing, at some locations,
and nothing else. -/
def Makes (P : Location → Prop) (t t' : Tree) : Prop := t.Plain → t'.Plain ∧ t.Grows P t'

instance (P : Location → Prop) : Std.Refl (Makes P) where
  refl t ht := ⟨ht, .refl P t⟩

instance (P : Location → Prop) : IsTrans Tree (Makes P) where
  trans _ _ _ h h' ht := ⟨(h' (h ht).1).1, (h ht).2.trans (h' (h ht).1).2⟩

end Tree

namespace Edit

variable {P : Location → Prop} {t t' : Tree} {p : Path}

/-- Wherever a directory is made, nothing was there. -/
theorem grows_makeDirectory (p : Path) : Moves (Tree.Grows fun _ => True) (makeDirectory p) :=
  moves_makeDirectory_of fun _ _ hland hsets =>
    .of_sets trivial (Tree.accepts_of_land_free hland).1 hsets

theorem moves_makeDirectory (hP : P p.lexical) : Moves (Tree.Makes P) (makeDirectory p) := by
  refine moves_makeDirectory_of fun t l hland hsets ht => ?_
  obtain ⟨hlocation, -⟩ := ht.land_location hland
  obtain rfl : l = p.lexical := hlocation
  exact ⟨hsets.plain ht (by simp) fun _ => Path.isName_of_mem_lexical,
    .of_sets hP (Tree.accepts_of_land_free hland).1 hsets⟩

end Edit

end Branding
