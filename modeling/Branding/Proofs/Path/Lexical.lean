import Branding.Path

/-!
# Where a path leads by its text

Without links a path leads where its text says: empty segments and dots change nothing, a parent
takes back the last name, and every other segment is one more name. Most of what a run does with
paths is to follow one from another and to look at the directories one lies in, and both can be read
off the names.

## Main definitions

* `IsName` — a segment that stands for itself
* `Path.lexical` — the names a path leads to

## Main results

* `Path.lexical_descend` — names below a path are names after its own
* `Path.lexical_prefix_of_mem_enclosing` — a path lies in the directories around it
-/

namespace Branding

/-- A segment that stands for itself. -/
def IsName (s : String) : Prop := s ≠ "" ∧ s ≠ "." ∧ s ≠ ".."

instance (s : String) : Decidable (IsName s) := inferInstanceAs (Decidable (_ ∧ _))

theorem Component.ofSegment?_eq_name_iff {s : String} :
    ofSegment? s = some (.name s) ↔ IsName s := by
  unfold ofSegment? IsName
  split
  next h => rcases h with rfl | rfl <;> simp
  next h =>
    rw [not_or] at h
    split <;> simp_all

theorem Component.eq_of_ofSegment? {s a : String} (h : ofSegment? s = some (.name a)) :
    s = a ∧ IsName s := by
  have hs : s = a := by
    unfold ofSegment? at h
    split at h
    · cases h
    split at h <;> cases h
    rfl
  subst hs
  exact ⟨rfl, ofSegment?_eq_name_iff.1 h⟩

namespace Path

/-- The names after one more segment. -/
def stepSegment (names : List String) (s : String) : List String :=
  if s = "" ∨ s = "." then names else if s = ".." then names.dropLast else names ++ [s]

/-- The names a path leads to by its text. -/
def lexical (p : Path) : List String := normalNames p.components

theorem stepSegment_of_isName {s : String} (h : IsName s) (names : List String) :
    stepSegment names s = names ++ [s] := by
  rw [stepSegment, if_neg (not_or.2 ⟨h.1, h.2.1⟩), if_neg h.2.2]

theorem foldl_stepNormal_filterMap (segments names : List String) :
    (segments.filterMap Component.ofSegment?).foldl stepNormal names =
      segments.foldl stepSegment names := by
  rw [List.foldl_filterMap]
  congr 1
  funext names s
  unfold Component.ofSegment? stepSegment
  by_cases hblank : s = "" ∨ s = "."
  · rw [if_pos hblank, if_pos hblank]
  · rw [if_neg hblank, if_neg hblank]
    by_cases hup : s = ".."
    · rw [if_pos hup, if_pos hup]
      rfl
    · rw [if_neg hup, if_neg hup]
      rfl

theorem lexical_eq_foldl (p : Path) : p.lexical = p.segments.foldl stepSegment [] := by
  rw [lexical, normalNames, components, List.foldl_append, foldl_stepNormal_filterMap]
  congr 1
  split
  · rfl
  · split <;> rfl

theorem up_mem_components_iff {p : Path} : Component.up ∈ p.components ↔ ".." ∈ p.segments := by
  have hhead : Component.up ∉
      (if p.rooted then [.root] else if p.segments.head? = some "." then [.here] else [] :
        List Component) := by
    split
    · simp
    · split <;> simp
  have hup : ∀ s, Component.ofSegment? s = some .up ↔ s = ".." := by
    intro s
    unfold Component.ofSegment?
    split
    next h => rcases h with rfl | rfl <;> simp
    next => split <;> simp_all
  rw [components, List.mem_append, or_iff_right hhead, List.mem_filterMap]
  simp [hup]

/-! ### Names -/

theorem foldl_stepSegment_isName {segments : List String} {names : List String}
    (h : ∀ s ∈ names, IsName s) : ∀ s ∈ segments.foldl stepSegment names, IsName s := by
  induction segments generalizing names with
  | nil => exact h
  | cons a segments ih =>
    refine ih ?_
    unfold stepSegment
    split
    · exact h
    next hblank =>
      rw [not_or] at hblank
      split
      · exact fun s hs => h s (List.dropLast_subset names hs)
      next hup =>
        intro s hs
        rcases List.mem_append.1 hs with hs | hs
        · exact h s hs
        · rw [List.mem_singleton.1 hs]
          exact ⟨hblank.1, hblank.2, hup⟩

theorem isName_of_mem_lexical {p : Path} {s : String} (h : s ∈ p.lexical) : IsName s := by
  rw [lexical_eq_foldl] at h
  exact foldl_stepSegment_isName (by simp) s h

theorem foldl_stepSegment_of_isName {names : List String} (h : ∀ s ∈ names, IsName s)
    (front : List String) : names.foldl stepSegment front = front ++ names := by
  induction names generalizing front with
  | nil => simp
  | cons s names ih =>
    rw [List.forall_mem_cons] at h
    rw [List.foldl_cons, stepSegment_of_isName h.1, ih h.2, List.append_assoc,
      List.singleton_append]

theorem lexical_ofNames {names : List String} (h : ∀ s ∈ names, IsName s) (rooted : Bool) :
    (ofNames rooted names).lexical = names := by
  rw [lexical_eq_foldl, ofNames]
  split
  next hnil =>
    rw [List.isEmpty_iff] at hnil
    subst hnil
    rfl
  next => exact foldl_stepSegment_of_isName h []

theorem filterMap_ofSegment?_of_isName {names : List String} (h : ∀ s ∈ names, IsName s) :
    names.filterMap Component.ofSegment? = names.map .name := by
  induction names with
  | nil => rfl
  | cons s names ih =>
    rw [List.forall_mem_cons] at h
    rw [List.filterMap_cons, Component.ofSegment?_eq_name_iff.2 h.1, ih h.2, List.map_cons]

/-- The components of a path of names. -/
theorem components_ofNames {names : List String} (h : ∀ s ∈ names, IsName s) (rooted : Bool) :
    (ofNames rooted names).components = (if rooted then [.root] else []) ++ names.map .name := by
  cases names with
  | nil => cases rooted <;> rfl
  | cons s names =>
    have hs : IsName s := h s (by simp)
    rw [components, ofNames]
    simp only [List.isEmpty_cons, Bool.false_eq_true, if_false, List.head?_cons, Option.some.injEq,
      hs.2.1]
    rw [filterMap_ofSegment?_of_isName h]

/-- Two paths of names agree when their names do. -/
theorem agrees_ofNames_iff {names names' : List String} (h : ∀ s ∈ names, IsName s)
    (h' : ∀ s ∈ names', IsName s) (rooted : Bool) :
    (ofNames rooted names).agrees (ofNames rooted names') = true ↔ names = names' := by
  rw [agrees, beq_iff_eq, components_ofNames h, components_ofNames h', List.append_right_inj,
    List.map_inj_right fun _ _ => Component.name.inj]

theorem fileName?_of_segments {p : Path} {front : List String} {name : String}
    (hp : p.segments = front ++ [name]) (h : IsName name) : p.fileName? = some name := by
  have hlast : p.components.getLast? = some (.name name) := by
    rw [components, hp, List.filterMap_append]
    simp [Component.ofSegment?_eq_name_iff.2 h]
  rw [fileName?, hlast]

/-! ### One path after another -/

theorem foldl_stepSegment_concat_empty (segments names : List String) :
    (segments ++ [""]).foldl stepSegment names = segments.foldl stepSegment names := by
  rw [List.foldl_append]
  rfl

theorem lexical_join {p q : Path} (h : q.rooted = false) :
    (p.join q).lexical = q.segments.foldl stepSegment p.lexical := by
  rw [join, if_neg (by simp [h]), lexical_eq_foldl, lexical_eq_foldl]
  split
  next hlast =>
    obtain ⟨front, hfront⟩ := List.getLast?_eq_some_iff.1 hlast
    rw [hfront, List.dropLast_concat, foldl_stepSegment_concat_empty, List.foldl_append]
  next => rw [List.foldl_append]

theorem text_ne_of_rooted {p : Path} (h : p.rooted = true) : p.text ≠ "" := by
  rw [text, h]
  simp

theorem rooted_join {p q : Path} (h : q.rooted = false) : (p.join q).rooted = p.rooted := by
  rw [join, if_neg (by simp [h])]
  split <;> rfl

theorem rooted_descend (p : Path) (names : List String) : (p.descend names).rooted = p.rooted := by
  induction names generalizing p with
  | nil => rfl
  | cons name names ih => rw [descend, List.foldl_cons, ← descend, ih, child, rooted_join rfl]

theorem lexical_child {name : String} (h : IsName name) (p : Path) :
    (p.child name).lexical = p.lexical ++ [name] := by
  rw [child, lexical_join rfl]
  exact stepSegment_of_isName h _

theorem exists_segments_child (p : Path) (name : String) :
    ∃ front, (p.child name).segments = front ++ [name] := by
  rw [child, join, if_neg (by simp)]
  split
  · exact ⟨_, rfl⟩
  · exact ⟨_, rfl⟩

theorem descend_concat (p : Path) (names : List String) (name : String) :
    p.descend (names ++ [name]) = (p.descend names).child name := by
  rw [descend, List.foldl_append]
  rfl

theorem lexical_descend {names : List String} (h : ∀ s ∈ names, IsName s) (p : Path) :
    (p.descend names).lexical = p.lexical ++ names := by
  induction names generalizing p with
  | nil => rw [descend, List.foldl_nil, List.append_nil]
  | cons name names ih =>
    rw [List.forall_mem_cons] at h
    rw [descend, List.foldl_cons, ← descend, ih h.2, lexical_child h.1, List.append_assoc,
      List.singleton_append]

theorem mem_segments_join {p q : Path} {s : String} (h : q.rooted = false) (hs : s ≠ "") :
    s ∈ (p.join q).segments ↔ s ∈ p.segments ∨ s ∈ q.segments := by
  rw [join, if_neg (by simp [h])]
  split
  next hlast =>
    obtain ⟨front, hfront⟩ := List.getLast?_eq_some_iff.1 hlast
    rw [hfront, List.dropLast_concat]
    simp [hs]
  next => exact List.mem_append

theorem mem_segments_descend {p : Path} {names : List String} {s : String} (hs : s ≠ "") :
    s ∈ (p.descend names).segments ↔ s ∈ p.segments ∨ s ∈ names := by
  induction names generalizing p with
  | nil => simp [descend]
  | cons name names ih =>
    rw [descend, List.foldl_cons, ← descend, ih, child, mem_segments_join rfl hs]
    simp [or_assoc]

/-! ### The directories around a path -/

theorem suffix_of_mem_stems {rooted : Bool} {back stem : List String}
    (h : stem ∈ stems rooted back) : stem <:+ back := by
  induction back with
  | nil => cases h
  | cons s before ih =>
    rw [stems] at h
    split at h
    · rcases List.mem_cons.1 h with rfl | h
      · exact List.suffix_refl _
      · exact (ih h).trans (List.suffix_cons s before)
    · exact (ih h).trans (List.suffix_cons s before)

theorem segments_of_mem_enclosing {p q : Path} (h : q ∈ p.enclosing) :
    q.segments <+: p.segments ∨ q.segments = [""] := by
  unfold enclosing at h
  split at h
  · cases h
  next first outer hstems =>
    rcases List.mem_append.1 h with h | h
    · obtain ⟨stem, hstem, rfl⟩ := List.mem_map.1 h
      have hsuffix : stem <:+ p.segments.reverse :=
        suffix_of_mem_stems (hstems ▸ List.mem_cons_of_mem _ hstem)
      refine Or.inl ?_
      rwa [← List.reverse_suffix, List.reverse_reverse]
    · rw [List.mem_singleton.1 h]
      exact Or.inr rfl

/-- The longest stem ends where the segments that do not count begin, and the others are those of
what is before its last segment. -/
theorem exists_of_stems_eq_cons {rooted : Bool} {back stem : List String}
    {outer : List (List String)} (h : stems rooted back = stem :: outer) :
    ∃ skipped s before, back = skipped ++ s :: before ∧ s ≠ "" ∧ outer = stems rooted before := by
  induction back with
  | nil => cases h
  | cons s before ih =>
    rw [stems] at h
    split at h
    next hcounts =>
      obtain ⟨-, rfl⟩ := List.cons.inj h
      refine ⟨[], s, before, rfl, ?_, rfl⟩
      rintro rfl
      cases hcounts
    next =>
      obtain ⟨skipped, a, rest, rfl, ha, houter⟩ := ih h
      exact ⟨s :: skipped, a, rest, rfl, ha, houter⟩

/-- A path goes on by name from each of the directories around it. -/
theorem exists_rest_of_mem_enclosing {p q : Path} (h : q ∈ p.enclosing) :
    q = start p.rooted ∨
      q.rooted = p.rooted ∧ ∃ rest, p.segments = q.segments ++ rest ∧ ∃ s ∈ rest, s ≠ "" := by
  unfold enclosing at h
  split at h
  · cases h
  next first outer hstems =>
    obtain ⟨skipped, s, before, hback, hs, rfl⟩ := exists_of_stems_eq_cons hstems
    rcases List.mem_append.1 h with h | h
    · obtain ⟨stem, hstem, rfl⟩ := List.mem_map.1 h
      obtain ⟨between, hbefore⟩ := suffix_of_mem_stems hstem
      refine Or.inr ⟨rfl, between.reverse ++ s :: skipped.reverse, ?_, s, by simp, hs⟩
      rw [← List.reverse_inj, hback, ← hbefore]
      simp
    · exact Or.inl (List.mem_singleton.1 h)

theorem prefix_foldl_stepSegment {segments : List String} (h : ".." ∉ segments)
    (names : List String) : names <+: segments.foldl stepSegment names := by
  induction segments generalizing names with
  | nil => exact List.prefix_refl names
  | cons s segments ih =>
    rw [List.mem_cons, not_or] at h
    refine List.IsPrefix.trans ?_ (ih h.2 _)
    unfold stepSegment
    split
    · exact List.prefix_refl names
    · rw [if_neg (Ne.symm h.1)]
      exact List.prefix_append names [s]

/-- A path that takes nothing back lies in the directories around it. -/
theorem lexical_prefix_of_mem_enclosing {p q : Path} (hup : ".." ∉ p.segments)
    (h : q ∈ p.enclosing) : q.lexical <+: p.lexical ∧ ".." ∉ q.segments := by
  rw [lexical_eq_foldl, lexical_eq_foldl]
  rcases segments_of_mem_enclosing h with ⟨rest, hrest⟩ | hq
  · rw [← hrest, List.mem_append, not_or] at hup
    rw [← hrest, List.foldl_append]
    exact ⟨prefix_foldl_stepSegment hup.2 _, hup.1⟩
  · rw [hq]
    exact ⟨List.nil_prefix, by decide⟩

/-- The same, for the directories around these. -/
theorem lexical_prefix_of_mem_around {p q r : Path} (hup : ".." ∉ p.segments)
    (hq : q ∈ p.enclosing) (hr : r ∈ q :: q.enclosing) : r.lexical <+: p.lexical := by
  obtain ⟨hle, hup'⟩ := lexical_prefix_of_mem_enclosing hup hq
  rcases List.mem_cons.1 hr with rfl | hr
  · exact hle
  · exact (lexical_prefix_of_mem_enclosing hup' hr).1.trans hle

end Path

end Branding
