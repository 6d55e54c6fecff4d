import Branding.Proofs.Path.Outward
import Mathlib.Data.List.Infix

/-!
# The directory right around a path

A search that goes outward takes the parent of a path, then the parent of that, until there is none.
The directories around a path are listed with the path, all at once. The two are the same: what is
around a path is its parent and what is around the parent. So a search that goes outward comes to an
end, and it has then seen the listed directories and no others.

Where a rooted path ends in a name, its parent leads to the location above it. A path that ends in
a step back has a parent too, which by its text is below it, and a search that takes names back one
by one has to stop there.

## Main results

* `Path.enclosing_of_parent?` — around a path are its parent and what is around that
* `Path.wellFounded_parent?` — every search outward ends
* `Path.lexical_of_parent?` — a name is taken back
* `Path.map_lexical_enclosing` — a path without steps back lies in the locations above its own
-/

namespace Branding

namespace Path

variable {p q : Path} {segments blanks : List String} {name : String}

/-! ### One directory after another -/

/-- The stems of a stem are those that follow it. -/
theorem stems_of_stems_eq_cons {rooted : Bool} {back stem : List String}
    {outer : List (List String)} (h : stems rooted back = stem :: outer) :
    stems rooted stem = stem :: outer := by
  induction back with
  | nil => cases h
  | cons s before ih =>
    have hcons := h
    rw [stems] at h
    split at h
    next =>
      obtain ⟨rfl, -⟩ := List.cons.inj h
      exact hcons
    next => exact ih h

/-- Around a path are its parent and what is around its parent. -/
theorem enclosing_of_parent? (h : p.parent? = some q) : p.enclosing = q :: q.enclosing := by
  obtain ⟨rooted, segments⟩ := p
  unfold parent? at h
  unfold enclosing at h ⊢
  cases hstems : stems rooted segments.reverse with
  | nil =>
    simp only [hstems] at h
    cases h
  | cons stem outer =>
    simp only [hstems] at h ⊢
    cases outer with
    | nil =>
      obtain rfl : start rooted = q := Option.some.inj h
      cases rooted <;> rfl
    | cons next outer =>
      obtain rfl : ⟨rooted, next.reverse⟩ = q := Option.some.inj h
      obtain ⟨skipped, s, before, -, -, houter⟩ := exists_of_stems_eq_cons hstems
      simp only [List.reverse_reverse, stems_of_stems_eq_cons houter.symm]
      rfl

theorem enclosing_of_parent?_eq_none (h : p.parent? = none) : p.enclosing = [] :=
  List.head?_eq_none_iff.1 h

/-- Every search outward ends. -/
theorem wellFounded_parent? : WellFounded fun q p : Path => p.parent? = some q :=
  Subrelation.wf
    (fun {q p} (h : p.parent? = some q) => by
      show q.enclosing.length < p.enclosing.length
      rw [enclosing_of_parent? h]
      exact Nat.lt_succ_self _)
    (InvImage.wf (fun p : Path => p.enclosing.length) Nat.lt_wfRel.wf)

/-! ### The last name of a rooted path -/

theorem components_append_blanks (h : ∀ b ∈ blanks, b = "" ∨ b = ".") (segments : List String) :
    (mk true (segments ++ blanks)).components = (mk true segments).components := by
  have hnone : blanks.filterMap Component.ofSegment? = [] := by
    rw [List.filterMap_eq_nil_iff]
    exact fun b hb => if_pos (h b hb)
  rw [components, components, List.filterMap_append, hnone, List.append_nil]
  rfl

/-- The last name of a path is its last counted segment. -/
theorem fileName?_eq_some {s : String} (hs : ¬(s = "" ∨ s = "."))
    (hblanks : ∀ b ∈ blanks, b = "" ∨ b = ".")
    (h : (mk true (segments ++ s :: blanks)).fileName? = some name) : name = s ∧ IsName s := by
  obtain ⟨c, hc⟩ : ∃ c, Component.ofSegment? s = some c := by
    rw [Component.ofSegment?, if_neg hs]
    split <;> exact ⟨_, rfl⟩
  have hlast : (mk true (segments ++ s :: blanks)).components.getLast? = some c := by
    rw [List.append_cons, components_append_blanks hblanks, components, List.filterMap_append,
      ← List.append_assoc, List.filterMap_cons, hc]
    exact List.getLast?_concat
  rw [fileName?, hlast] at h
  cases c with
  | name s' =>
    obtain ⟨rfl, hname⟩ := Component.eq_of_ofSegment? hc
    exact ⟨(Option.some.inj h).symm, hname⟩
  | root | here | up => cases h

theorem fileName?_of_blanks (h : ∀ b ∈ segments, b = "" ∨ b = ".") :
    (mk true segments).fileName? = none := by
  have hroot := components_append_blanks h []
  rw [List.nil_append] at hroot
  rw [fileName?, hroot]
  rfl

/-! ### Where the parent of a rooted path leads -/

theorem lexical_append_blanks (h : ∀ b ∈ blanks, b = "" ∨ b = ".") (segments : List String) :
    (mk true (segments ++ blanks)).lexical = (mk true segments).lexical := by
  rw [lexical, components_append_blanks h, ← lexical]

/-- The first of the directories at the initial parts of a path leads where all of it does. -/
theorem lexical_head?_outward {back : List String} (h : (outward back).head? = some q) :
    q.rooted = true ∧ q.lexical = (mk true back.reverse).lexical := by
  induction back with
  | nil =>
    cases h
    exact ⟨rfl, rfl⟩
  | cons s before ih =>
    by_cases hs : s = "" ∨ s = "."
    · rw [outward_blank hs] at h
      rw [List.reverse_cons, lexical_append_blanks (by simpa using hs)]
      exact ih h
    · rw [outward_cons hs] at h
      cases h
      rw [List.reverse_cons]
      exact ⟨rfl, rfl⟩

/-- A rooted path with a parent is cut at its last counted segment. -/
theorem exists_last_of_parent? (hp : p.rooted = true) (h : p.parent? = some q) :
    ∃ before s blanks, p = ⟨true, before ++ s :: blanks⟩ ∧ ¬(s = "" ∨ s = ".") ∧
      (∀ b ∈ blanks, b = "" ∨ b = ".") ∧ q.rooted = true ∧
        q.lexical = (mk true before).lexical := by
  obtain ⟨rooted, segments⟩ := p
  obtain rfl : rooted = true := hp
  rw [parent?] at h
  rcases eq_blanks_or_exists_last segments with hblank | ⟨before, s, blanks, rfl, hs, hblanks⟩
  · rw [enclosing_eq_nil hblank] at h
    cases h
  · rw [enclosing_eq_outward hs hblanks] at h
    obtain ⟨hrooted, hlexical⟩ := lexical_head?_outward h
    rw [List.reverse_reverse] at hlexical
    exact ⟨before, s, blanks, rfl, hs, hblanks, hrooted, hlexical⟩

theorem lexical_of_isName {before : List String} {s : String} (hs : IsName s)
    (hblanks : ∀ b ∈ blanks, b = "" ∨ b = ".") :
    (mk true (before ++ s :: blanks)).lexical = (mk true before).lexical ++ [s] := by
  rw [List.append_cons, lexical_append_blanks hblanks, lexical_eq_foldl, lexical_eq_foldl,
    List.foldl_append]
  exact stepSegment_of_isName hs _

/-- The parent of a path that ends in a name leads to what is above it. -/
theorem lexical_of_parent? (hp : p.rooted = true) (hname : p.fileName? = some name)
    (h : p.parent? = some q) :
    q.rooted = true ∧ IsName name ∧ p.lexical = q.lexical ++ [name] := by
  obtain ⟨before, s, blanks, rfl, hs, hblanks, hrooted, hlexical⟩ := exists_last_of_parent? hp h
  obtain ⟨rfl, hisName⟩ := fileName?_eq_some hs hblanks hname
  rw [lexical_of_isName hisName hblanks, hlexical]
  exact ⟨hrooted, hisName, rfl⟩

/-- Around a path that steps back nowhere are the locations above its own, up to the root. -/
theorem map_lexical_enclosing (hp : p.rooted = true) (hup : ".." ∉ p.segments) :
    (p :: p.enclosing).map lexical = p.lexical.inits.reverse := by
  induction p using wellFounded_parent?.induction with
  | _ p ih =>
    cases hparent : p.parent? with
    | none =>
      obtain ⟨rooted, segments⟩ := p
      obtain rfl : rooted = true := hp
      rcases eq_blanks_or_exists_last segments with hblank | ⟨before, s, blanks, rfl, hs, hblanks⟩
      · have hlexical := lexical_append_blanks hblank []
        rw [List.nil_append] at hlexical
        rw [enclosing_of_parent?_eq_none hparent, List.map_singleton, hlexical]
        rfl
      · rw [parent?, enclosing_eq_outward hs hblanks, outward] at hparent
        simp at hparent
    | some q =>
      obtain ⟨before, s, blanks, rfl, hs, hblanks, hrooted, hlexical⟩ :=
        exists_last_of_parent? hp hparent
      have hmem : q ∈ (mk true (before ++ s :: blanks)).enclosing := by
        rw [enclosing_of_parent? hparent]
        exact List.mem_cons_self
      have hall := ih q hparent hrooted (lexical_prefix_of_mem_enclosing hup hmem).2
      simp only [List.mem_append, List.mem_cons, not_or] at hup
      have hisName : IsName s := ⟨(not_or.1 hs).1, (not_or.1 hs).2, Ne.symm hup.2.1⟩
      rw [enclosing_of_parent? hparent, List.map_cons, hall, hlexical,
        lexical_of_isName hisName hblanks, List.inits_append]
      simp

end Path

end Branding
