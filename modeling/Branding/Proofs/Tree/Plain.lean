import Branding.Proofs.Path.Outward

/-!
# Trees without links

In a tree without links a path that leads anywhere leads where its text says. That is all that is
needed to know what an operation which has succeeded has touched.

The other direction needs more. A location that has an entry is reached by a path with the right
text, where the path takes nothing back, since it could have to take back what is not there, and
where the system takes the path at all. The last is known of every path that has led somewhere
before.

## Main definitions

* `Tree.Plain` — no links, and names that stand for themselves

## Main results

* `Tree.Plain.land_location` — a path leads where its text says
* `Tree.Plain.find_of_get?` — what is there is found
* `Tree.Plain.find_of_kept` — where what is met on the way is kept, a path leads where it did
-/

namespace Branding

namespace Tree

/-- A tree in which no entry is a link, and every name stands for itself. -/
structure Plain (t : Tree) : Prop where
  no_link : ∀ (l : Location) (target : Path), t.get? l ≠ some (.link target)
  isName : ∀ {l : Location} {name : String} {e : Entry}, t.get? (l ++ [name]) = some e → IsName name

theorem Plain.named {t : Tree} (ht : t.Plain) : t.Named := ⟨ht.isName⟩

theorem Within.plain {t t' : Tree} (h : t'.Within t) (ht : t.Plain) : t'.Plain where
  no_link l target hl := ht.no_link l target (h l _ hl)
  isName hl := ht.isName (h _ _ hl)

theorem Plain.isName_of_mem {t : Tree} (ht : t.Plain) {l : Location} {e : Entry}
    (h : t.get? l = some e) : ∀ name ∈ l, IsName name :=
  ht.named.isName_of_mem h

end Tree

/-! ### A path leads where its text says -/

theorem Path.foldl_stepSegment_of_eq_empty {rest : List String} (h : ∀ s ∈ rest, s = "")
    (names : List String) : rest.foldl stepSegment names = names := by
  induction rest with
  | nil => rfl
  | cons s rest ih =>
    rw [List.forall_mem_cons] at h
    rw [List.foldl_cons, h.1]
    exact ih h.2

namespace Tree.Plain

variable {t : Tree}

/-- In a tree without links segments lead where they say. -/
theorem lands_location (ht : t.Plain) {mode : LastName} {k : Nat} {l : Location}
    {segments : List String} {x : Landing} (h : t.Lands mode k l segments x) :
    x.location = segments.foldl Path.stepSegment l := by
  have hlast : ∀ {s : String} {rest : List String} {l : Location}, IsName s →
      mode.endsBefore rest = true → l ++ [s] = (s :: rest).foldl Path.stepSegment l := by
    intro s rest l hs hends
    rw [List.foldl_cons, Path.stepSegment_of_isName hs,
      Path.foldl_stepSegment_of_eq_empty (LastName.eq_empty_of_endsBefore hends)]
  induction h with
  | arrived k l => rfl
  | blank hs _ ih => rw [ih, List.foldl_cons, Path.stepSegment, if_pos hs]
  | up _ ih =>
    rw [ih, List.foldl_cons, Path.stepSegment, if_neg (by decide), if_pos rfl]
  | into hs _ _ _ _ ih => rw [ih, List.foldl_cons, Path.stepSegment_of_isName hs]
  | through _ _ _ hget | held _ _ _ hget => exact absurd hget (ht.no_link _ _)
  | free hs _ _ _ hends | file hs _ _ _ hends => exact hlast hs hends

theorem land_location (ht : t.Plain) {mode : LastName} {p : Path} {landing : Landing}
    (h : t.land mode p = .ok landing) : landing.location = p.lexical ∧ p.Admissible := by
  obtain ⟨hadm, hlands⟩ := land_eq_ok_iff.1 h
  exact ⟨by rw [ht.lands_location hlands, Path.lexical_eq_foldl], hadm⟩

theorem find_eq_ok (ht : t.Plain) {p : Path} {l : Location} {e : Entry}
    (h : t.find p = .ok (l, e)) :
    l = p.lexical ∧ t.get? p.lexical = some e ∧ p.Admissible := by
  unfold find at h
  cases hland : t.land .follow p with
  | error r => rw [hland] at h; cases h
  | ok landing =>
    rw [hland] at h
    obtain ⟨hlocation, hadm⟩ := ht.land_location hland
    cases landing with
    | free l' => cases h
    | occupied l' e' =>
      cases h
      have hl : l = p.lexical := hlocation
      exact ⟨hl, hl ▸ get?_of_land_occupied hland, hadm⟩

theorem look_eq_ok (ht : t.Plain) {p : Path} {l : Location} {e : Entry}
    (h : t.look p = .ok (l, e)) :
    l = p.lexical ∧ t.get? p.lexical = some e := by
  unfold look at h
  cases hland : t.land .hold p with
  | error r => rw [hland] at h; cases h
  | ok landing =>
    rw [hland] at h
    obtain ⟨hlocation, -⟩ := ht.land_location hland
    cases landing with
    | free l' => cases h
    | occupied l' e' =>
      cases h
      have hl : l = p.lexical := hlocation
      exact ⟨hl, hl ▸ get?_of_land_occupied hland⟩

/-! ### What is there is found -/

/-- The last segment of a path that does not end in a slash or a dot. -/
theorem concat_of_cons_eq {s name : String} {rest front : List String}
    (h : s :: rest = front ++ [name]) :
    (front = [] ∧ s = name ∧ rest = []) ∨ ∃ front', rest = front' ++ [name] := by
  cases front with
  | nil =>
    obtain ⟨rfl, rfl⟩ := List.cons.inj h
    exact Or.inl ⟨rfl, rfl, rfl⟩
  | cons a front => exact Or.inr ⟨front, (List.cons.inj h).2⟩

theorem lands_of_get? {k : Nat} {l : Location} (hl : t.get? l = some .directory)
    {segments : List String} (hup : ".." ∉ segments)
    (hshort : ∀ s ∈ segments, s.utf8ByteSize ≤ maxNameBytes) {e : Entry}
    (he : t.get? (segments.foldl Path.stepSegment l) = some e) (hlink : ∀ target, e ≠ .link target)
    (hend : e = .directory ∨ ∃ front name, segments = front ++ [name] ∧ IsName name) :
    t.Lands .follow k l segments (.occupied (segments.foldl Path.stepSegment l) e) := by
  induction segments generalizing l with
  | nil =>
    rw [List.foldl_nil, hl] at he
    cases he
    exact .arrived k l
  | cons s rest ih =>
    rw [List.mem_cons, not_or] at hup
    rw [List.forall_mem_cons] at hshort
    rw [List.foldl_cons] at he ⊢
    by_cases hblank : s = "" ∨ s = "."
    · rw [Path.stepSegment, if_pos hblank] at he ⊢
      refine .blank hblank (ih hl hup.2 hshort.2 he (hend.imp_right ?_))
      rintro ⟨front, name, heq, hname⟩
      rcases concat_of_cons_eq heq with ⟨-, rfl, -⟩ | ⟨front', hrest⟩
      · exact absurd hblank (not_or.2 ⟨hname.1, hname.2.1⟩)
      · exact ⟨front', name, hrest, hname⟩
    have hs : IsName s := ⟨(not_or.1 hblank).1, (not_or.1 hblank).2, Ne.symm hup.1⟩
    rw [Path.stepSegment_of_isName hs] at he ⊢
    -- what is at the next name lies above `e`, or is `e` itself
    obtain ⟨more, hmore⟩ := Path.prefix_foldl_stepSegment hup.2 (l ++ [s])
    rw [← hmore] at he
    by_cases hdir : t.get? (l ++ [s]) = some .directory
    · rw [hmore] at he
      refine .into hs hshort.1 (by simp) hdir (ih hdir hup.2 hshort.2 he ?_)
      rcases hend with hend | ⟨front, name, heq, hname⟩
      · exact Or.inl hend
      rcases concat_of_cons_eq heq with ⟨-, -, rfl⟩ | ⟨front', hrest⟩
      · rw [List.foldl_nil, hdir] at he
        exact Or.inl (Option.some.inj he).symm
      · exact Or.inr ⟨front', name, hrest, hname⟩
    · obtain rfl : more = [] := by
        by_contra hne
        exact hdir (get?_eq_directory he hne)
      rw [List.append_nil] at he hmore
      obtain ⟨front, name, heq, hname⟩ := hend.resolve_left fun h => hdir (h ▸ he)
      obtain rfl : rest = [] := by
        rcases concat_of_cons_eq heq with ⟨-, -, rfl⟩ | ⟨front', rfl⟩
        · rfl
        · rw [List.mem_append, not_or] at hup
          have hlonger := (Path.prefix_foldl_stepSegment hup.2.1 (l ++ [s])).length_le
          rw [List.foldl_append, List.foldl_cons, List.foldl_nil,
            Path.stepSegment_of_isName hname] at hmore
          have hlength := (congrArg List.length hmore).trans List.length_append
          rw [List.length_singleton] at hlength
          omega
      cases e with
      | directory => exact absurd he hdir
      | file bytes => exact .file hs hshort.1 (by simp) he rfl
      | link target => exact absurd rfl (hlink target)

/-- What is at the location of a path that takes nothing back is found, where the system takes the
path. Only a directory may have a slash or a dot after its name. -/
theorem find_of_get? (ht : t.Plain) {p : Path} (hadm : p.Admissible) (hup : ".." ∉ p.segments)
    {e : Entry} (he : t.get? p.lexical = some e)
    (hend : e = .directory ∨ ∃ front name, p.segments = front ++ [name] ∧ IsName name) :
    t.find p = .ok (p.lexical, e) := by
  have hlink : ∀ target, e ≠ .link target := by
    rintro target rfl
    exact ht.no_link _ target he
  rw [Path.lexical_eq_foldl] at he ⊢
  exact find_eq_ok_iff.2 ⟨hadm, lands_of_get? t.get?_nil hup hadm.names_short he hlink hend⟩

/-! ### A way that is kept -/

/-- Segments lead where they did when what is at the names they go by is kept. -/
theorem lands_of_kept (ht : t.Plain) {t' : Tree} {mode : LastName} {k : Nat} {l m : Location}
    {e : Entry} {segments : List String} (h : t.Lands mode k l segments (.occupied m e))
    (hkept : ∀ before s rest, segments = before ++ s :: rest → IsName s → ∀ e,
      t.get? ((before ++ [s]).foldl Path.stepSegment l) = some e →
        t'.get? ((before ++ [s]).foldl Path.stepSegment l) = some e) :
    t'.Lands mode k l segments (.occupied m e) := by
  have hhere : ∀ {l s rest}, IsName s → (∀ before a after, s :: rest = before ++ a :: after →
      IsName a → ∀ e, t.get? ((before ++ [a]).foldl Path.stepSegment l) = some e →
        t'.get? ((before ++ [a]).foldl Path.stepSegment l) = some e) →
      ∀ e, t.get? (l ++ [s]) = some e → t'.get? (l ++ [s]) = some e := by
    intro l s rest hs hkept e he
    have hstep := hkept [] s rest rfl hs e
    rw [List.nil_append, List.foldl_cons, List.foldl_nil, Path.stepSegment_of_isName hs] at hstep
    exact hstep he
  generalize hx : Landing.occupied m e = x at h
  induction h with
  | arrived k l => exact .arrived k l
  | @blank k l s rest x hs _ ih =>
    refine .blank hs (ih (fun before a after hrest ha e => ?_) hx)
    have hstep := hkept (s :: before) a after (by rw [hrest]; rfl) ha e
    rwa [List.cons_append, List.foldl_cons, Path.stepSegment, if_pos hs] at hstep
  | @up k l rest x _ ih =>
    refine .up (ih (fun before a after hrest ha e => ?_) hx)
    have hstep := hkept (".." :: before) a after (by rw [hrest]; rfl) ha e
    rwa [List.cons_append, List.foldl_cons, Path.stepSegment, if_neg (by decide), if_pos rfl]
      at hstep
  | @into k l s rest x hs hshort hcreate hget _ ih =>
    refine .into hs hshort hcreate (hhere hs hkept _ hget)
      (ih (fun before a after hrest ha e => ?_) hx)
    have hstep := hkept (s :: before) a after (by rw [hrest]; rfl) ha e
    rwa [List.cons_append, List.foldl_cons, Path.stepSegment_of_isName hs] at hstep
  | through _ _ _ hget | held _ _ _ hget => exact absurd hget (ht.no_link _ _)
  | free => cases hx
  | file hs hshort hcreate hget hends => exact .file hs hshort hcreate (hhere hs hkept _ hget) hends

/-- A path leads where it did when nothing becomes different where it or a directory around it
leads. -/
theorem find_of_kept (ht : t.Plain) {t' : Tree} {p : Path} (hp : p.rooted = true) {l : Location}
    {e : Entry} (hfind : t.find p = .ok (l, e))
    (hkept : ∀ q ∈ p :: p.enclosing, ∀ e, t.get? q.lexical = some e → t'.get? q.lexical = some e) :
    t'.find p = .ok (l, e) := by
  obtain ⟨hadm, hlands⟩ := find_eq_ok_iff.1 hfind
  refine find_eq_ok_iff.2 ⟨hadm, ht.lands_of_kept hlands fun before s rest hsegments hs => ?_⟩
  obtain ⟨rooted, segments⟩ := p
  obtain rfl : rooted = true := hp
  obtain rfl : segments = before ++ s :: rest := hsegments
  obtain ⟨q, hq, hlexical⟩ :=
    @Path.exists_lexical_of_counted before rest s (not_or.2 ⟨hs.1, hs.2.1⟩)
  rw [← hlexical]
  exact hkept q hq

end Tree.Plain

end Branding
