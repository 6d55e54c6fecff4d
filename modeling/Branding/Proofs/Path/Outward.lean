import Branding.Proofs.Path.Place
import Branding.Proofs.Tree.Find

/-!
# Outward from a path

The directories around a rooted path are its initial parts that end in a segment that counts, and
then the root. So they can be gone through by going back along the segments, one at a time, which is
how everything about them is proved. Whatever the system takes, it takes these as well.

## Main definitions

* `Path.outward` — the initial parts of a path, longest first, down to the root

## Main results

* `Path.enclosing_eq_outward` — the directories around a path, by its last counted segment
* `Path.mem_enclosing_descend` — those around a path below another
* `Path.Admissible.of_mem_enclosing` — the system takes them all
-/

namespace Branding

namespace Path

/-- The directories at the initial parts of a rooted path that end in a counted segment, longest
first, down to the root. The segments are given last first. -/
def outward (back : List String) : List Path :=
  (stems true back).map (fun stem => ⟨true, stem.reverse⟩) ++ [start true]

theorem counts_rooted {s : String} {before : List String} :
    counts true s before = true ↔ ¬(s = "" ∨ s = ".") := by
  unfold counts
  split
  next h => simp [h]
  next h => split <;> simp_all

theorem outward_nil : outward [] = [start true] := rfl

theorem outward_blank {s : String} (h : s = "" ∨ s = ".") (before : List String) :
    outward (s :: before) = outward before := by
  rw [outward, stems, if_neg (by rw [counts_rooted, not_not]; exact h), outward]

theorem outward_cons {s : String} (h : ¬(s = "" ∨ s = ".")) (before : List String) :
    outward (s :: before) = ⟨true, before.reverse ++ [s]⟩ :: outward before := by
  rw [outward, stems, if_pos (counts_rooted.2 h), List.map_cons, List.reverse_cons]
  rfl

/-- Segments cut at the last one that counts in a rooted path, if there is one. -/
theorem eq_blanks_or_exists_last (segments : List String) :
    (∀ s ∈ segments, s = "" ∨ s = ".") ∨
      ∃ before s blanks, segments = before ++ s :: blanks ∧ ¬(s = "" ∨ s = ".") ∧
        ∀ b ∈ blanks, b = "" ∨ b = "." := by
  induction segments with
  | nil => exact Or.inl (by simp)
  | cons a rest ih =>
    rcases ih with hblank | ⟨before, s, blanks, rfl, hs, hblanks⟩
    · by_cases ha : a = "" ∨ a = "."
      · exact Or.inl (List.forall_mem_cons.2 ⟨ha, hblank⟩)
      · exact Or.inr ⟨[], a, rest, rfl, ha, hblank⟩
    · exact Or.inr ⟨a :: before, s, blanks, rfl, hs, hblanks⟩

theorem stems_blanks_append {blanks : List String} (h : ∀ b ∈ blanks, b = "" ∨ b = ".")
    (back : List String) : stems true (blanks ++ back) = stems true back := by
  induction blanks with
  | nil => rfl
  | cons b blanks ih =>
    rw [List.forall_mem_cons] at h
    rw [List.cons_append, stems, if_neg (by rw [counts_rooted, not_not]; exact h.1), ih h.2]

theorem enclosing_eq_nil {segments : List String} (h : ∀ s ∈ segments, s = "" ∨ s = ".") :
    (mk true segments).enclosing = [] := by
  have hstems := stems_blanks_append (fun s hs => h s (List.mem_reverse.1 hs)) []
  rw [List.append_nil] at hstems
  rw [enclosing, hstems]
  rfl

/-- The directories around a rooted path. -/
theorem enclosing_eq_outward {before blanks : List String} {s : String} (hs : ¬(s = "" ∨ s = "."))
    (hblanks : ∀ b ∈ blanks, b = "" ∨ b = ".") :
    (mk true (before ++ s :: blanks)).enclosing = outward before.reverse := by
  have hback : (before ++ s :: blanks).reverse = blanks.reverse ++ s :: before.reverse := by simp
  have hstems : stems true (before ++ s :: blanks).reverse =
      (s :: before.reverse) :: stems true before.reverse := by
    rw [hback, stems_blanks_append fun b hb => hblanks b (List.mem_reverse.1 hb), stems,
      if_pos (counts_rooted.2 hs)]
  rw [enclosing, hstems]
  rfl

/-- Neither a dot nor an empty segment makes a directory of its own. -/
example : (ofString "/a/./b//c/").enclosing = [ofString "/a/./b", ofString "/a", ofString "/"] := by
  decide +kernel

/-! ### What is among them -/

theorem eq_or_prefix_of_mem_outward {back : List String} {q : Path} (h : q ∈ outward back) :
    q = start true ∨ q.rooted = true ∧ q.segments <+: back.reverse := by
  rcases List.mem_append.1 h with h | h
  · obtain ⟨stem, hstem, rfl⟩ := List.mem_map.1 h
    exact Or.inr ⟨rfl, List.reverse_prefix.2 (suffix_of_mem_stems hstem)⟩
  · exact Or.inl (List.mem_singleton.1 h)

theorem eq_or_prefix_of_mem_enclosing {p q : Path} (hp : p.rooted = true) (h : q ∈ p.enclosing) :
    q = start true ∨ q.rooted = true ∧ q.segments <+: p.segments := by
  obtain ⟨rooted, segments⟩ := p
  obtain rfl : rooted = true := hp
  rcases eq_blanks_or_exists_last segments with hblank | ⟨before, s, blanks, rfl, hs, hblanks⟩
  · rw [enclosing_eq_nil hblank] at h
    cases h
  · rw [enclosing_eq_outward hs hblanks] at h
    refine (eq_or_prefix_of_mem_outward h).imp_right fun ⟨hq, hle⟩ => ⟨hq, ?_⟩
    rw [List.reverse_reverse] at hle
    exact hle.trans (List.prefix_append _ _)

theorem mem_outward_of_counted {s : String} (hs : ¬(s = "" ∨ s = "."))
    (before after : List String) :
    mk true (before ++ [s]) ∈ outward (after ++ s :: before.reverse) := by
  induction after with
  | nil =>
    rw [List.nil_append, outward_cons hs, List.reverse_reverse]
    exact List.mem_cons_self
  | cons a after ih =>
    rw [List.cons_append]
    by_cases ha : a = "" ∨ a = "."
    · rwa [outward_blank ha]
    · rw [outward_cons ha]
      exact List.mem_cons_of_mem _ ih

/-- The part of a path up to a segment that counts leads by its text where the path does, or a
directory around it. -/
theorem exists_lexical_of_counted {before rest : List String} {s : String}
    (hs : ¬(s = "" ∨ s = ".")) :
    ∃ q ∈ mk true (before ++ s :: rest) :: (mk true (before ++ s :: rest)).enclosing,
      q.lexical = (before ++ [s]).foldl stepSegment [] := by
  rcases eq_blanks_or_exists_last rest with hblank | ⟨between, a, blanks, rfl, ha, hblanks⟩
  · refine ⟨_, List.mem_cons_self, ?_⟩
    have hrest : ∀ names, rest.foldl stepSegment names = names := by
      intro names
      induction rest with
      | nil => rfl
      | cons b rest ih =>
        rw [List.forall_mem_cons] at hblank
        rw [List.foldl_cons, stepSegment, if_pos hblank.1]
        exact ih hblank.2
    rw [lexical_eq_foldl, List.append_cons, List.foldl_append, hrest]
  · refine ⟨mk true (before ++ [s]), List.mem_cons_of_mem _ ?_, lexical_eq_foldl _⟩
    have hsplit : before ++ s :: (between ++ a :: blanks) =
        (before ++ s :: between) ++ a :: blanks := by simp
    rw [hsplit, enclosing_eq_outward ha hblanks]
    have hmem := mem_outward_of_counted hs before between.reverse
    simpa using hmem

/-- The directories around one of the directories around a path are among them too. -/
theorem mem_outward_of_mem_enclosing {back : List String} {q r : Path} (hq : q ∈ outward back)
    (hr : r ∈ q.enclosing) : r ∈ outward back := by
  have hstart : (start true).enclosing = [] := rfl
  induction back with
  | nil =>
    obtain rfl := List.mem_singleton.1 hq
    rw [hstart] at hr
    cases hr
  | cons s before ih =>
    by_cases hs : s = "" ∨ s = "."
    · rw [outward_blank hs] at hq ⊢
      exact ih hq
    · rw [outward_cons hs] at hq ⊢
      rcases List.mem_cons.1 hq with rfl | hq
      · rw [enclosing_eq_outward hs (by simp), List.reverse_reverse] at hr
        exact List.mem_cons_of_mem _ hr
      · exact List.mem_cons_of_mem _ (ih hq)

theorem mem_enclosing_trans {p q r : Path} (hp : p.rooted = true) (hq : q ∈ p.enclosing)
    (hr : r ∈ q.enclosing) : r ∈ p.enclosing := by
  obtain ⟨rooted, segments⟩ := p
  obtain rfl : rooted = true := hp
  rcases eq_blanks_or_exists_last segments with hblank | ⟨before, s, blanks, rfl, hs, hblanks⟩
  · rw [enclosing_eq_nil hblank] at hq
    cases hq
  · rw [enclosing_eq_outward hs hblanks] at hq ⊢
    exact mem_outward_of_mem_enclosing hq hr

/-! ### Below a path -/

/-- A path below another one, segment by segment. -/
theorem exists_descend_eq (p : Path) : ∃ front : List String,
    (p.segments = front ∨ p.segments = front ++ [""]) ∧
      ∀ names : List String, names ≠ [] → (∀ name ∈ names, IsName name) →
        p.descend names = ⟨p.rooted, front ++ names⟩ := by
  obtain ⟨front, hfront, hjoin⟩ := exists_join_eq p
  refine ⟨front, hfront, fun names hne hnames => ?_⟩
  rw [← join_ofNames hne hnames, ofNames_of_ne_nil hne, hjoin]

theorem mem_outward_append {names back : List String} (hnames : ∀ name ∈ names, IsName name)
    {q : Path} (h : q ∈ outward (names.reverse ++ back)) :
    (∃ front, front ≠ [] ∧ front <+: names ∧ q = ⟨true, back.reverse ++ front⟩) ∨
      q ∈ outward back := by
  induction names using List.reverseRecOn with
  | nil => exact Or.inr h
  | append_singleton names name ih =>
    rw [List.forall_mem_append, List.forall_mem_singleton] at hnames
    rw [List.reverse_append, List.reverse_singleton, List.singleton_append, List.cons_append,
      outward_cons (not_or.2 ⟨hnames.2.1, hnames.2.2.1⟩)] at h
    rcases List.mem_cons.1 h with rfl | h
    · exact Or.inl ⟨names ++ [name], by simp, List.prefix_refl _, by simp⟩
    · refine (ih hnames.1 h).imp_left ?_
      rintro ⟨front, hne, hle, rfl⟩
      exact ⟨front, hne, hle.trans (List.prefix_append _ _), rfl⟩

/-- The directories around a path below another one: those in between, and initial parts of the
other. -/
theorem mem_enclosing_descend {p q : Path} (hp : p.rooted = true) {names : List String}
    (hne : names ≠ []) (hnames : ∀ name ∈ names, IsName name)
    (h : q ∈ (p.descend names).enclosing) :
    (∃ front, front ≠ [] ∧ front <+: names ∧ front ≠ names ∧ q = p.descend front) ∨
      q = start true ∨ q.rooted = true ∧ q.segments <+: p.segments := by
  obtain ⟨first, hfirst, hdescend⟩ := exists_descend_eq p
  obtain ⟨before, name, rfl⟩ := (List.eq_nil_or_concat names).resolve_left hne
  rw [List.concat_eq_append] at hne hnames h ⊢
  have hname : IsName name := hnames name (by simp)
  have hbefore : ∀ name ∈ before, IsName name := fun s hs => hnames s (List.mem_append_left _ hs)
  rw [hdescend _ hne hnames, hp, ← List.append_assoc,
    enclosing_eq_outward (not_or.2 ⟨hname.1, hname.2.1⟩) (by simp), List.reverse_append] at h
  rcases mem_outward_append hbefore h with ⟨front, hfront, hle, rfl⟩ | h
  · refine Or.inl ⟨front, hfront, hle.trans (List.prefix_append _ _), ?_, ?_⟩
    · rintro rfl
      have hlength := hle.length_le
      rw [List.length_append, List.length_singleton] at hlength
      omega
    · rw [hdescend front hfront fun s hs => hbefore s (hle.subset hs), hp, List.reverse_reverse]
  · refine Or.inr ((eq_or_prefix_of_mem_outward h).imp_right fun ⟨hq, hle⟩ => ⟨hq, ?_⟩)
    rw [List.reverse_reverse] at hle
    rcases hfirst with hfirst | hfirst
    · rwa [hfirst]
    · rw [hfirst]
      exact hle.trans (List.prefix_append _ _)

/-! ### What the system takes -/

theorem exists_text_append {rooted : Bool} {segments rest : List String} :
    ∃ more, (mk rooted (segments ++ rest)).text = (mk rooted segments).text ++ more := by
  by_cases hsegments : segments = []
  · subst hsegments
    exact ⟨"/".intercalate rest, by simp [text]⟩
  by_cases hrest : rest = []
  · subst hrest
    exact ⟨"", by simp⟩
  · refine ⟨"/" ++ "/".intercalate rest, ?_⟩
    rw [text, text, String.intercalate_append_of_ne_nil hsegments hrest]
    simp [String.append_assoc]

theorem admissible_start : (start true).Admissible where
  nul_not_mem := by decide +kernel
  text_ne := by decide +kernel
  text_short := by decide +kernel
  names_short := by decide +kernel

/-- Whoever takes a path takes its initial parts, unless one is empty. -/
theorem Admissible.of_prefix {p q : Path} (h : p.Admissible) (hrooted : q.rooted = p.rooted)
    (hne : q.text ≠ "") (hle : q.segments <+: p.segments) : q.Admissible := by
  obtain ⟨rooted, segments⟩ := q
  obtain ⟨rooted', all⟩ := p
  obtain rfl : rooted = rooted' := hrooted
  obtain ⟨rest, rfl⟩ : ∃ rest, segments ++ rest = all := hle
  obtain ⟨more, hmore⟩ := @exists_text_append rooted segments rest
  obtain ⟨hnul, -, hshort, hnames⟩ := h
  rw [hmore] at hnul hshort
  refine ⟨fun hmem => hnul ?_, hne, ?_, fun s hs => ?_⟩
  · rw [String.toList_append]
    exact List.mem_append_left _ hmem
  · rw [String.utf8ByteSize_append] at hshort
    omega
  · exact hnames s (List.mem_append_left _ hs)

theorem Admissible.of_mem_enclosing {p q : Path} (h : p.Admissible) (hne : q.text ≠ "")
    (hq : q ∈ p.enclosing) : q.Admissible := by
  rcases exists_rest_of_mem_enclosing hq with rfl | ⟨hrooted, rest, hrest, -⟩
  · cases hp : p.rooted with
    | true => exact admissible_start
    | false =>
      rw [hp] at hne
      exact absurd rfl hne
  · exact h.of_prefix hrooted hne ⟨rest, hrest.symm⟩

theorem rooted_of_mem_enclosing {p q : Path} (hq : q ∈ p.enclosing) : q.rooted = p.rooted := by
  rcases exists_rest_of_mem_enclosing hq with rfl | ⟨hrooted, -⟩
  · rfl
  · exact hrooted

end Path

/-- A path that leads anywhere goes through the directories around it. -/
theorem Tree.find_of_mem_enclosing {t : Tree} {p q : Path} (hne : q.text ≠ "")
    (hq : q ∈ p.enclosing) {l : Location} {e : Entry} (h : t.find p = .ok (l, e)) :
    ∃ d, t.find q = .ok (d, .directory) := by
  obtain ⟨hadm, hlands⟩ := Tree.find_eq_ok_iff.1 h
  suffices hleads : ∃ k d, t.Leads Tree.maxLinks [] q.segments k d by
    obtain ⟨k, d, hleads⟩ := hleads
    exact ⟨d, Tree.find_directory_iff.2 ⟨hadm.of_mem_enclosing hne hq, k, hleads⟩⟩
  rcases Path.exists_rest_of_mem_enclosing hq with rfl | ⟨-, rest, hsegments, hrest⟩
  · exact ⟨_, _, .blank (Or.inl rfl) (.arrived _ _)⟩
  · rw [hsegments] at hlands
    obtain ⟨k, d, hleads, -⟩ := hlands.leads (Or.inl hrest)
    exact ⟨k, d, hleads⟩

end Branding
