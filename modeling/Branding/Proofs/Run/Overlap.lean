import Branding.Proofs.Run.Settled

/-!
# What the check of the output promises

The check compares where the template is with where the output would be. It resolves as much of the
path of the output as exists, and takes the names from there on by their text. There are two things
it does not see to. Where it comes to a step back in the part that does not exist, it gives up on
resolving, and compares the text of the path alone. And it follows a link that the path ends in,
which a build will remove, wherever that link is.

## Main definitions

* `Tree.CheckReliable` — neither of the two is the case

## Main results

* `Tree.apart_of_checkApart`, `Tree.checkApart_eq_ok` — what has passed the check is apart from the
  template
* `Tree.Plain.checkReliable` — without links and steps back the check is reliable
-/

namespace Branding

namespace Path

theorem normalize_of_rooted {p : Path} (h : p.rooted = true) :
    p.normalize = ofNames true p.lexical := by
  rw [normalize, h, lexical]

theorem isWithin_ofNames_iff {names names' : List String} (h : ∀ s ∈ names, IsName s)
    (h' : ∀ s ∈ names', IsName s) :
    (ofNames true names).isWithin (ofNames true names') = true ↔ names' <+: names := by
  rw [isWithin, List.isPrefixOf_iff_prefix, components_ofNames h, components_ofNames h',
    List.prefix_append_right_inj]
  exact List.prefix_map_iff_of_injective fun _ _ => Component.name.inj

theorem normalize_descend_ofNames {l : Location} {names : List String} (hl : ∀ s ∈ l, IsName s)
    (hnames : ∀ s ∈ names, IsName s) :
    ((ofNames true l).descend names).normalize = ofNames true (l ++ names) := by
  rw [normalize_of_rooted (by rw [rooted_descend]; rfl), lexical_descend hnames, lexical_ofNames hl]

end Path

namespace Tree

variable {t : Tree} {template output p base : Path} {l : Location} {names : List String}

/-! ### Where a path would be -/

theorem canonical?_of_find {e : Entry} (h : t.find p = .ok (l, e)) :
    t.canonical? p = some (.ofNames true l) := by
  rw [canonical?, h]

/-- Where a path that exists in part would be is a location. -/
theorem settledFrom?_names (hrooted : p.rooted = true)
    (h : t.settledFrom? (p :: p.enclosing) = some (base, names)) :
    ∃ l : Location, base = .ofNames true l ∧ (∀ name ∈ l, IsName name) ∧
      ∀ name ∈ names, IsName name := by
  by_cases hhas : t.has p = true
  · rcases settledFrom?_cons h with ⟨l, e, hfind, rfl, rfl⟩ | ⟨hfree, -⟩
    · exact ⟨l, rfl, find_isName hfind, List.forall_mem_nil _⟩
    · rw [hhas] at hfree
      cases hfree
  · obtain ⟨l, hbase, hl, hnames, -⟩ := settledFrom?_enclosing hrooted (by simpa using hhas) h
    exact ⟨l, hbase, hl, hnames⟩

/-- The template of a build that has passed the check is a directory, and what the output comes to
is apart from there. -/
theorem apart_of_checkApart (h : t.checkApart template output = .ok ()) :
    ∃ source : Location, t.find template = .ok (source, .directory) ∧
      ∀ {l : Location}, (∀ name ∈ l, IsName name) →
        (t.settled output).normalize = .ofNames true l → Location.Apart source l := by
  unfold checkApart at h
  by_cases hdir : t.isDirectory template = true
  swap
  · rw [if_neg hdir] at h
    cases h
  rw [if_pos hdir] at h
  obtain ⟨source, hfind⟩ := isDirectory_iff.1 hdir
  refine ⟨source, hfind, fun {l} hl hsettled => ?_⟩
  have hsource : ((t.canonical? template).getD template).normalize = .ofNames true source := by
    rw [canonical?_of_find hfind, Option.getD_some, Path.normalize_of_rooted rfl,
      Path.lexical_ofNames (find_isName hfind)]
  simp only [hsource, hsettled, Path.isWithin_ofNames_iff hl (find_isName hfind),
    Path.isWithin_ofNames_iff (find_isName hfind) hl, Bool.or_eq_true] at h
  split at h
  · cases h
  next hapart => exact not_or.1 hapart

/-- The template of a build that has passed the check is a directory, and where the output would be,
as far as the check has resolved it, is apart from there. -/
theorem checkApart_eq_ok (hrooted : output.rooted = true)
    (h : t.checkApart template output = .ok ()) :
    ∃ source : Location, t.find template = .ok (source, .directory) ∧
      ∀ {l : Location} {names : List String},
        t.settledFrom? (output :: output.enclosing) = some (.ofNames true l, names) →
        (∀ name ∈ l, IsName name) → Location.Apart source (l ++ names) := by
  obtain ⟨source, hfind, hapart⟩ := apart_of_checkApart h
  refine ⟨source, hfind, fun {l names} hsettled hl => ?_⟩
  obtain ⟨-, -, -, hnames⟩ := settledFrom?_names hrooted hsettled
  refine hapart (List.forall_mem_append.2 ⟨hl, hnames⟩) ?_
  rw [settled, hsettled, Path.normalize_descend_ofNames hl hnames]

/-! ### Where the check can be relied on -/

/-- The check of an output can be relied on: the path is resolved to where it would be, and a link
that it ends in is not in the directory at a location and leads nowhere else once it is gone. -/
structure CheckReliable (t : Tree) (output : Path) (source : Location) : Prop where
  settled : t.settledFrom? (output :: output.enclosing) ≠ none
  link : ∀ (l : Location) (target : Path), t.look output = .ok (l, .link target) →
    ¬source <+: l ∧ ".." ∉ output.segments

/-- An output that is not there ends in no link. -/
theorem CheckReliable.of_absent {r : Refusal} {source : Location}
    (hsettled : t.settledFrom? (output :: output.enclosing) ≠ none)
    (hlook : t.look output = .error r) :
    t.CheckReliable output source where
  settled := hsettled
  link l target hlink := by
    rw [hlook] at hlink
    cases hlink

theorem settledFrom?_outward_ne_none {back : List String} (hup : ".." ∉ back) :
    t.settledFrom? (Path.outward back) ≠ none := by
  induction back with
  | nil =>
    have hstart : t.find (.start true) = .ok ([], .directory) :=
      find_directory_iff.2 ⟨Path.admissible_start, maxLinks, .blank (Or.inl rfl) (.arrived _ _)⟩
    rw [Path.outward_nil, settledFrom?, if_pos (has_iff.2 ⟨_, _, hstart⟩)]
    exact Option.some_ne_none _
  | cons b back ih =>
    rw [List.mem_cons, not_or] at hup
    by_cases hblank : b = "" ∨ b = "."
    · rw [Path.outward_blank hblank]
      exact ih hup.2
    · have hb : IsName b := ⟨(not_or.1 hblank).1, (not_or.1 hblank).2, Ne.symm hup.1⟩
      obtain ⟨found, hfound⟩ := Option.ne_none_iff_exists'.1 (ih hup.2)
      rw [Path.outward_cons hblank, settledFrom?, hfound, Path.fileName?_of_segments rfl hb]
      split <;> exact Option.some_ne_none _

/-- A path without steps back that has passed the check was resolved. -/
theorem settledFrom?_ne_none (hrooted : output.rooted = true) (hup : ".." ∉ output.segments)
    (h : t.checkApart template output = .ok ()) :
    t.settledFrom? (output :: output.enclosing) ≠ none := by
  obtain ⟨rooted, segments⟩ := output
  obtain rfl : rooted = true := hrooted
  intro hnone
  rcases Path.eq_blanks_or_exists_last segments with hblank | ⟨before, s, blanks, rfl, hs, hblanks⟩
  · -- a path to the root is around every template
    obtain ⟨source, hfind, -⟩ := checkApart_eq_ok rfl h
    have hroot : (Path.mk true segments).lexical = [] := by
      have hcomponents := Path.components_append_blanks hblank []
      rw [List.nil_append] at hcomponents
      rw [Path.lexical, hcomponents]
      rfl
    rw [checkApart, if_pos (isDirectory_iff.2 ⟨_, hfind⟩), canonical?_of_find hfind, settled,
      hnone] at h
    simp only [Option.getD_some, Path.normalize_of_rooted, hroot] at h
    rw [if_pos] at h
    · cases h
    · rw [Bool.or_eq_true]
      refine Or.inr ((Path.isWithin_ofNames_iff ?_ (List.forall_mem_nil _)).2 List.nil_prefix)
      exact fun _ => Path.isName_of_mem_lexical
  · simp only [List.mem_append, List.mem_cons, not_or] at hup
    have hname : IsName s := ⟨(not_or.1 hs).1, (not_or.1 hs).2, Ne.symm hup.2.1⟩
    have houter : t.settledFrom? (Path.outward before.reverse) ≠ none :=
      settledFrom?_outward_ne_none (by simpa using hup.1)
    obtain ⟨found, hfound⟩ := Option.ne_none_iff_exists'.1 houter
    have hfile : (Path.mk true (before ++ s :: blanks)).fileName? = some s := by
      rw [List.append_cons, Path.fileName?, Path.components_append_blanks hblanks, ← Path.fileName?]
      exact Path.fileName?_of_segments rfl hname
    rw [Path.enclosing_eq_outward hs hblanks, settledFrom?, hfound, hfile] at hnone
    split at hnone <;> cases hnone

/-- Without links and steps back the check can be relied on. -/
theorem Plain.checkReliable (ht : t.Plain) (hrooted : output.rooted = true)
    (hup : ".." ∉ output.segments) (h : t.checkApart template output = .ok ()) (source : Location) :
    t.CheckReliable output source where
  settled := settledFrom?_ne_none hrooted hup h
  link l target hlook := absurd (get?_of_look hlook) (ht.no_link l target)

end Tree

end Branding
