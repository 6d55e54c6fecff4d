import Branding.Proofs.Files.Write
import Branding.Proofs.Path.Parent
import Branding.Run.Overlap

/-!
# Where a path would be

A path that does not exist yet is resolved as far as it does, and the names from there on are
taken by their text. That this is where the path will lead once its directories have been made is
not plain to see: links are followed on the way, and a link whose target is missing today may lead
somewhere when the target has been made. But only directories between the resolved part and the end
of the names are made. Where a link stands on that way nothing can be made below it, so a link that
leads nowhere goes on to do so.

## Main definitions

* `Location.Along` — the locations from one down to another

## Main results

* `Tree.settledFrom?_outward` — what the search for an existing part says about a tree that has
  grown
* `Tree.exists_vacant_of_settled` — a directory is made where its path would be, and nowhere else
-/

namespace Branding

/-- A location lies on the way from another one down along some names. -/
def Location.Along (l : Location) (names : List String) (m : Location) : Prop :=
  ∃ front, front ≠ [] ∧ front <+: names ∧ m = l ++ front

namespace Tree

variable {t s : Tree} {p q base : Path} {l m : Location} {names full : List String}

/-! ### A tree that has grown -/

namespace Grows

variable {P : Location → Prop}

theorem within (h : t.Grows P s) : t.Within s := fun _ _ => h.get?_of_eq_some

/-- Where the whole way is there already, nothing has been made. -/
theorem eq_of_get? (h : t.Grows (l.Along names) s) {e : Entry} (he : t.get? (l ++ names) = some e) :
    s = t := by
  refine ext_get? fun m => (h m).resolve_right ?_
  rintro ⟨⟨front, -, hle, rfl⟩, hnone, -⟩
  by_cases heq : front = names
  · rw [heq, he] at hnone
    cases hnone
  · have hthere := get?_eq_directory_of_prefix he ((List.prefix_append_right_inj l).2 hle)
      fun hsame => heq (List.append_cancel_left hsame)
    rw [hthere] at hnone
    cases hnone

/-- Where a file or a link is on the way, nothing has been made. -/
theorem eq_of_not_directory (h : t.Grows (l.Along full) s) (hle : names <+: full) {e : Entry}
    (he : t.get? (l ++ names) = some e) (hdir : e ≠ .directory) : s = t := by
  refine ext_get? fun m => (h m).resolve_right ?_
  rintro ⟨⟨front, -, hfront, rfl⟩, hnone, hnew⟩
  rcases List.prefix_or_prefix_of_prefix hfront hle with hbefore | hbehind
  · by_cases heq : front = names
    · rw [heq, he] at hnone
      cases hnone
    · have hthere := get?_eq_directory_of_prefix he ((List.prefix_append_right_inj l).2 hbefore)
        fun hsame => heq (List.append_cancel_left hsame)
      rw [hthere] at hnone
      cases hnone
  · by_cases heq : names = front
    · rw [← heq, he] at hnone
      cases hnone
    · have hthere := get?_eq_directory_of_prefix hnew ((List.prefix_append_right_inj l).2 hbehind)
        fun hsame => heq (List.append_cancel_left hsame)
      rw [h.get?_of_eq_some he] at hthere
      exact hdir (Option.some.inj hthere)

end Grows

/-! ### The search for an existing part -/

/-- One step of the search for a path that exists. -/
theorem settledFrom?_cons {outer : List Path}
    (h : t.settledFrom? (p :: outer) = some (base, names)) :
    (∃ l e, t.find p = .ok (l, e) ∧ base = .ofNames true l ∧ names = []) ∨
      t.has p = false ∧ ∃ name front, p.fileName? = some name ∧
        t.settledFrom? outer = some (base, front) ∧ names = front ++ [name] := by
  rw [settledFrom?] at h
  by_cases hhas : t.has p = true
  · rw [if_pos hhas] at h
    obtain ⟨l, e, hfind⟩ := has_iff.1 hhas
    rw [canonical?, hfind] at h
    cases h
    exact Or.inl ⟨l, e, hfind, rfl, rfl⟩
  · rw [if_neg hhas] at h
    obtain ⟨name, hname, h⟩ := Option.bind_eq_some_iff.1 h
    obtain ⟨⟨base', front⟩, hrest, h⟩ := Option.bind_eq_some_iff.1 h
    cases h
    exact Or.inr ⟨by simpa using hhas, name, front, hname, hrest, rfl⟩

/-- What the search for an existing part says about a tree in which directories have been made from
there on: the path leads down its names if it leads to a directory at all, and the next directory
can be made on the way down the names only. -/
theorem settledFrom?_outward {back : List String}
    (h : t.settledFrom? (Path.outward back) = some (base, names)) :
    ∃ l : Location, base = .ofNames true l ∧ (∀ name ∈ l, IsName name) ∧
      (∀ name ∈ names, IsName name) ∧
      ∀ {full : List String} {s : Tree}, names <+: full → t.Grows (l.Along full) s →
        (∀ {k : Nat} {d : Location}, (Path.mk true back.reverse).Admissible →
          s.Leads maxLinks [] back.reverse k d → d = l ++ names) ∧
        ∀ {q : Path} {m : Location}, q ∈ Path.outward back → s.land .name q = .ok (.free m) →
          l.Along names m := by
  induction back generalizing names with
  | nil =>
    rcases settledFrom?_cons h with ⟨l, e, hfind, rfl, rfl⟩ | ⟨-, name, -, hname, -⟩
    · cases (find_eq_ok_iff.1 hfind).2.of_blank (by simp [Path.start])
      refine ⟨[], rfl, by simp, by simp,
        fun {full s} _ _ => ⟨fun _ hleads => ?_, fun hq hfree => ?_⟩⟩
      · exact (hleads.of_blank (by simp)).2
      · rw [List.mem_singleton.1 hq] at hfree
        exact absurd hfree not_free_start
    · cases hname
  | cons b back ih =>
    rw [List.reverse_cons]
    by_cases hblank : b = "" ∨ b = "."
    · rw [Path.outward_blank hblank] at h ⊢
      obtain ⟨l, hbase, hl, hnames, hgrown⟩ := ih h
      refine ⟨l, hbase, hl, hnames,
        fun hle hgrows => ⟨fun hadm hleads => ?_, (hgrown hle hgrows).2⟩⟩
      exact (hgrown hle hgrows).1 (hadm.of_prefix rfl (Path.text_ne_of_rooted rfl)
        (List.prefix_append _ _))
        ((leads_append_blank_iff (by simpa using hblank)).1 hleads)
    rw [Path.outward_cons hblank] at h ⊢
    have hb : b ≠ "" := (not_or.1 hblank).1
    rcases settledFrom?_cons h with ⟨l, e, hfind, rfl, rfl⟩ | ⟨hhas, name, front, hname, hrest, rfl⟩
    · -- the path exists, and so do all around it
      refine ⟨l, rfl, find_isName hfind, by simp,
        fun {full s} _ hgrows => ⟨fun hadm hleads => ?_, ?_⟩⟩
      · have hdir := find_directory_iff.2 ⟨hadm, _, hleads⟩
        rw [hgrows.within.find hfind] at hdir
        cases hdir
        rw [List.append_nil]
      · intro q m hq hfree
        rcases List.mem_cons.1 hq with rfl | hq
        · exact absurd hfree (not_free_of_lands (find_eq_ok_iff.1 (hgrows.within.find hfind)).2)
        · exact absurd hfree
            (not_free_of_lands_append ⟨b, by simp, hb⟩
              (find_eq_ok_iff.1 (hgrows.within.find hfind)).2 (Path.eq_or_prefix_of_mem_outward hq))
    · obtain ⟨rfl, hisName⟩ := Path.fileName?_eq_some hblank (by simp) hname
      obtain ⟨l, hbase, hl, hnames, hgrown⟩ := ih hrest
      refine ⟨l, hbase, hl, ?_, fun {full s} hle hgrows => ?_⟩
      · rw [List.forall_mem_append, List.forall_mem_singleton]
        exact ⟨hnames, hisName⟩
      obtain ⟨hdown, hmade⟩ := hgrown ((List.prefix_append front [name]).trans hle) hgrows
      have hbefore :
          ∀ {k : Nat} {d : Location}, (Path.mk true (back.reverse ++ [name])).Admissible →
          s.Leads maxLinks [] back.reverse k d → d = l ++ front :=
        fun hadm => hdown (hadm.of_prefix rfl (Path.text_ne_of_rooted rfl) (List.prefix_append _ _))
      refine ⟨fun {k d} hadm hleads => ?_, fun {q m} hq hfree => ?_⟩
      · obtain ⟨k₁, d₁, hfirst, hlast⟩ := hleads.cut
        obtain rfl := hbefore hadm hfirst
        rw [← List.append_assoc]
        cases hlast with
        | blank hs => exact absurd hs hblank
        | up => exact absurd rfl hisName.2.2
        | into _ _ _ hend =>
          exact (hend.of_blank (by simp)).2
        | @through _ _ _ _ _ _ target _ _ hget =>
          -- a link that leads nowhere in a tree leads nowhere in one that has grown
          have hlink : t.get? (l ++ (front ++ [name])) = some (.link target) := by
            rw [← List.append_assoc]
            rcases hgrows (l ++ front ++ [name]) with hsame | ⟨-, -, hnew⟩
            · rw [← hsame, hget]
            · rw [hget] at hnew
              cases hnew
          obtain rfl := hgrows.eq_of_not_directory hle hlink (by simp)
          have hthere := find_directory_iff.2 ⟨hadm, _, hleads⟩
          rw [has_iff.2 ⟨_, _, hthere⟩] at hhas
          cases hhas
      · rcases List.mem_cons.1 hq with rfl | hq
        · obtain ⟨hadm, hlands⟩ := land_eq_ok_iff.1 hfree
          obtain ⟨-, k, d, hleads, rfl, -⟩ := hlands.of_free hblank (by simp)
          obtain rfl := hbefore hadm hleads
          exact ⟨front ++ [name], by simp, List.prefix_refl _, List.append_assoc _ _ _⟩
        · obtain ⟨front', hne, hfront, rfl⟩ := hmade hq hfree
          exact ⟨front', hne, hfront.trans (List.prefix_append _ _), rfl⟩

/-- The same about a path that does not exist yet. -/
theorem settledFrom?_enclosing (hrooted : p.rooted = true) (hfree : t.has p = false)
    (h : t.settledFrom? (p :: p.enclosing) = some (base, names)) :
    ∃ l : Location, base = .ofNames true l ∧ (∀ name ∈ l, IsName name) ∧
      (∀ name ∈ names, IsName name) ∧
      ∀ {s : Tree}, t.Grows (l.Along names) s →
        (∀ {d : Location}, s.find p = .ok (d, .directory) →
          d = l ++ names ∧ t.get? (l ++ names) = none) ∧
        ∀ {q : Path} {m : Location}, q ∈ p :: p.enclosing → s.land .name q = .ok (.free m) →
          l.Along names m := by
  have hstep := settledFrom?_cons h
  rcases hstep with ⟨_, _, hfind, -⟩ | ⟨-, name, front, hname, hrest, rfl⟩
  · rw [has_iff.2 ⟨_, _, hfind⟩] at hfree
    cases hfree
  obtain ⟨rooted, segments⟩ := p
  obtain rfl : rooted = true := hrooted
  rcases Path.eq_blanks_or_exists_last segments with hblank | ⟨before, b, blanks, rfl, hb, hblanks⟩
  · rw [Path.fileName?_of_blanks hblank] at hname
    cases hname
  obtain ⟨rfl, hisName⟩ := Path.fileName?_eq_some hb hblanks hname
  rw [Path.enclosing_eq_outward hb hblanks] at hrest ⊢
  obtain ⟨l, hbase, hl, hnames, hgrown⟩ := settledFrom?_outward hrest
  refine ⟨l, hbase, hl, ?_, fun {s} hgrows => ?_⟩
  · rw [List.forall_mem_append, List.forall_mem_singleton]
    exact ⟨hnames, hisName⟩
  obtain ⟨hdown, hmade⟩ := hgrown (List.prefix_append front [name]) hgrows
  rw [List.reverse_reverse] at hdown
  have hbefore : ∀ {k : Nat} {d : Location},
      (Path.mk true (before ++ name :: blanks)).Admissible → s.Leads maxLinks [] before k d →
      d = l ++ front :=
    fun hadm => hdown (hadm.of_prefix rfl (Path.text_ne_of_rooted rfl) (List.prefix_append _ _))
  refine ⟨fun {d} hdir => ?_, fun {q m} hq hland => ?_⟩
  · have hnone : t.get? (l ++ (front ++ [name])) = none := by
      rw [Option.eq_none_iff_forall_ne_some]
      intro e he
      rw [hgrows.eq_of_get? he] at hdir
      rw [has_iff.2 ⟨_, _, hdir⟩] at hfree
      cases hfree
    obtain ⟨hadm, k, hleads⟩ := find_directory_iff.1 hdir
    obtain ⟨k₁, d₁, hfirst, hlast⟩ := hleads.cut
    obtain rfl := hbefore hadm hfirst
    rw [← List.append_assoc] at hnone ⊢
    refine ⟨?_, hnone⟩
    cases hlast with
    | blank hs => exact absurd hs hb
    | up => exact absurd rfl hisName.2.2
    | into _ _ _ hend => exact (hend.of_blank hblanks).2
    | through _ _ hget =>
      rcases hgrows (l ++ front ++ [name]) with hsame | ⟨-, -, hnew⟩
      · rw [hsame, hnone] at hget
        cases hget
      · rw [hnew] at hget
        cases hget
  · rcases List.mem_cons.1 hq with rfl | hq
    · obtain ⟨hadm, hlands⟩ := land_eq_ok_iff.1 hland
      obtain ⟨-, k, d, hleads, rfl, -⟩ := hlands.of_free hb hblanks
      obtain rfl := hbefore hadm hleads
      exact ⟨front ++ [name], by simp, List.prefix_refl _, List.append_assoc _ _ _⟩
    · obtain ⟨front', hne, hfront, rfl⟩ := hmade hq hland
      exact ⟨front', hne, hfront.trans (List.prefix_append _ _), rfl⟩

end Tree

/-! ### A directory made where its path would be -/

/-- Where a path that leads nowhere yet would be is a place for a directory. -/
theorem Tree.exists_vacant_of_settled {t : Tree} {p base : Path} {names : List String}
    (hrooted : p.rooted = true) (hfree : t.has p = false)
    (h : t.settledFrom? (p :: p.enclosing) = some (base, names)) :
    ∃ l : Location, base = .ofNames true l ∧ (∀ name ∈ l, IsName name) ∧
      t.Vacant p (l ++ names) := by
  obtain ⟨l, hbase, hl, -, hgrown⟩ := settledFrom?_enclosing hrooted hfree h
  have hmoves : Moves (Keeps (t.Grows (l.Along names))) (Files.ensureDirectory p) := by
    refine Files.moves_ensureDirectory_of fun q hq => Edit.moves_makeDirectory_of ?_
    intro s m hland hsets hgrows
    exact hgrows.trans (.of_sets ((hgrown hgrows).2 hq hland) (accepts_of_land_free hland).1 hsets)
  have hgrows := hmoves t (.refl _ t)
  refine ⟨l, hbase, hl, fun m => ?_, fun {u t'} hrun => ?_⟩
  · refine (hgrows m).imp_right fun ⟨halong, hmade⟩ => ⟨?_, hmade⟩
    obtain ⟨front, -, hle, rfl⟩ := halong
    exact (List.prefix_append_right_inj l).2 hle
  rw [hrun] at hgrows
  obtain ⟨d, hfound⟩ := Files.ensureDirectory_found (Path.text_ne_of_rooted hrooted) hrun
  obtain ⟨rfl, hnone⟩ := (hgrown hgrows).1 hfound
  have hempty : ∀ more, more ≠ [] → t'.get? (l ++ names ++ more) = none := by
    intro more hne
    rw [hgrows.get?_of_not, get?_append_eq_none (by simp [hnone]) hne]
    rintro ⟨front, -, hle, heq⟩
    rw [List.append_assoc] at heq
    have hlength := hle.length_le
    rw [← List.append_cancel_left heq, List.length_append] at hlength
    exact hne (List.eq_nil_of_length_eq_zero (by omega))
  exact ⟨.of_empty hfound hempty, hempty⟩

end Branding
