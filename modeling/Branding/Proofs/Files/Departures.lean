import Branding.Files.Clean
import Branding.Proofs.Files.Walk
import Branding.Proofs.Path.ByteOrder
import Mathlib.Data.List.TakeWhile

/-!
# Departures from directories

A walk leaves a directory right before the first entry that does not lie in it. The entries come in
order, and in that order what lies in a directory comes without a gap. So when a directory is left,
everything in it has been visited, and the walk does not come back. That is why a removal finds
every directory empty when its turn comes.

Each entry is visited once, or a directory twice, and only the second visit counts. So the number of
the departures is that of the directories, and the other visits are as many as the other entries.

## Main definitions

* `Visit.taken?` — the names of the entry that a visit is the last one to
* `Visit.Precedes` — what a visit says about those after it
* `Tree.visits` — the walk through a directory

## Main results

* `Visit.pairwise_ofEntries` — a walk does not come back
* `Visit.foldl_count_ofEntries` — the visits that count
-/

namespace Branding

/-! ### The order of names -/

/-- What lies in a directory comes after it. -/
theorem not_prefix_of_lt {d names : List String} (h : d < names) : ¬names <+: d := by
  rintro ⟨rest, rfl⟩
  induction names with
  | nil => exact List.not_lt_nil _ h
  | cons name names ih =>
    rw [List.cons_append, List.cons_lt_cons_iff] at h
    rcases h with hname | ⟨-, h⟩
    · exact lt_irrefl name hname
    · exact ih h

/-- What lies in a directory comes without a gap. -/
theorem prefix_of_lt_of_lt {d names names' : List String} (h : d < names) (h' : names < names')
    (hd : d <+: names') : d <+: names := by
  induction d generalizing names names' with
  | nil => exact List.nil_prefix
  | cons a d ih =>
    obtain ⟨rest, rfl⟩ := hd
    cases names with
    | nil => exact absurd h (List.not_lt_nil _)
    | cons b names =>
      rw [List.cons_lt_cons_iff] at h
      rw [List.cons_append, List.cons_lt_cons_iff] at h'
      rcases h with hab | ⟨rfl, h⟩
      · rcases h' with hba | ⟨rfl, -⟩
        · exact absurd hab hba.asymm
        · exact absurd hab (lt_irrefl _)
      · obtain ⟨-, h'⟩ := h'.resolve_left (lt_irrefl _)
        exact (List.prefix_cons_inj a).2 (ih h h' (List.prefix_append d rest))

namespace Visit

/-- The names of the entry that a visit is the last one to. -/
def taken? : Visit → Option (List String)
  | .enter _ => none
  | .leave names | .file names | .link names => some names

/-- What a visit says about one after it. A directory that was left is not come to again, and
nothing in it is, and a file or a link is come to once. -/
def Precedes : Visit → Visit → Prop
  | .enter _, _ => True
  | .leave names, w => ¬names <+: w.names
  | .file names, w | .link names, w => w.names ≠ names

theorem names_of_taken {v : Visit} {names : List String} (h : v.taken? = some names) :
    v.names = names := by
  cases v with
  | enter _ => cases h
  | leave _ | file _ | link _ => exact Option.some.inj h

theorem Precedes.names_ne {v w : Visit} (h : v.Precedes w) {names : List String}
    (hv : v.taken? = some names) : w.names ≠ names := by
  cases v with
  | enter _ => cases hv
  | leave d =>
    cases hv
    exact fun heq => h (heq ▸ List.prefix_refl _)
  | file _ | link _ =>
    cases hv
    exact h

theorem precedes_ofEntry {names : List String} {e : Entry} {w : Visit}
    (h : e ≠ .directory → w.names ≠ names) : (ofEntry names e).Precedes w := by
  cases e with
  | directory => trivial
  | file _ | link _ => exact h (by simp)

theorem enter_eq_ofEntry {names : List String} {e : Entry} :
    enter names = ofEntry names e ↔ e = .directory := by
  cases e <;> simp [ofEntry]

theorem leave_ne_ofEntry {names : List String} {e : Entry} : leave names ≠ ofEntry names e := by
  cases e <;> simp [ofEntry]

/-- A walk does not come back. -/
theorem pairwise_ofEntries {opened : List (List String)} {entries : List (List String × Entry)}
    (hopened : opened.Pairwise fun d d' => ¬d <+: d')
    (hbefore : ∀ d ∈ opened, ∀ entry ∈ entries, d < entry.1)
    (hentries : entries.Pairwise fun entry entry' => entry.1 < entry'.1) :
    (ofEntries opened entries).Pairwise Precedes := by
  induction entries generalizing opened with
  | nil =>
    rw [ofEntries, List.pairwise_map]
    exact hopened
  | cons entry rest ih =>
    obtain ⟨names, e⟩ := entry
    rw [List.pairwise_cons] at hentries
    obtain ⟨hhere, hentries⟩ := hentries
    rw [ofEntries_cons]
    have hleave : ∀ d ∈ opened.takeWhile fun directory => !directory.isPrefixOf names,
        d < names ∧ ¬d <+: names := by
      intro d hd
      refine ⟨hbefore d ((List.takeWhile_sublist _).subset hd) _ List.mem_cons_self, ?_⟩
      simpa [← List.isPrefixOf_iff_prefix] using List.mem_takeWhile_imp hd
    have hkeep : ∀ d ∈ opened.dropWhile fun directory => !directory.isPrefixOf names, d ∈ opened :=
      fun d hd => (List.dropWhile_sublist _).subset hd
    rw [← List.takeWhile_append_dropWhile (p := fun directory => !directory.isPrefixOf names)
      (l := opened), List.pairwise_append] at hopened
    obtain ⟨hleft, hkept, hcross⟩ := hopened
    generalize (opened.takeWhile fun directory => !directory.isPrefixOf names) = left at *
    generalize (opened.dropWhile fun directory => !directory.isPrefixOf names) = kept at *
    -- what is come to later was open, or is here, or comes after this
    have hlater : ∀ w ∈ ofEntries (openedBy names e ++ kept) rest,
        w.names ∈ kept ∨ e = .directory ∧ w.names = names ∨ ∃ entry ∈ rest, w.names = entry.1 := by
      intro w hw
      rcases leave_or_mem_of_mem_ofEntries hw with ⟨d, hd, rfl⟩ | hw
      · rcases List.mem_append.1 hd with hd | hd
        · exact Or.inr (Or.inl (mem_openedBy.1 hd).symm)
        · exact Or.inl hd
      · obtain ⟨entry, hentry, heq⟩ := List.mem_map.1 hw
        exact Or.inr (Or.inr ⟨entry, hentry, heq.symm⟩)
    refine List.pairwise_append.2 ⟨List.pairwise_map.2 hleft, List.pairwise_cons.2 ⟨?_, ?_⟩, ?_⟩
    · refine fun w hw => precedes_ofEntry fun he => ?_
      rcases hlater w hw with hw | ⟨hdir, -⟩ | ⟨entry, hentry, heq⟩
      · exact (hbefore _ (hkeep _ hw) _ List.mem_cons_self).ne
      · exact absurd hdir he
      · exact heq ▸ (hhere entry hentry).ne'
    · refine ih ?_ (fun d hd entry hentry => ?_) hentries
      · refine List.pairwise_append.2 ⟨?_, hkept, fun d hd d' hd' => ?_⟩
        · cases e <;> simp [openedBy]
        · obtain ⟨rfl, -⟩ := mem_openedBy.1 hd
          exact not_prefix_of_lt (hbefore d' (hkeep d' hd') _ List.mem_cons_self)
      · rcases List.mem_append.1 hd with hd | hd
        · obtain ⟨rfl, -⟩ := mem_openedBy.1 hd
          exact hhere entry hentry
        · exact hbefore d (hkeep d hd) entry (List.mem_cons_of_mem _ hentry)
    · intro v hv w hw
      obtain ⟨d, hd, rfl⟩ := List.mem_map.1 hv
      obtain ⟨hlt, hnot⟩ := hleave d hd
      rcases List.mem_cons.1 hw with rfl | hw
      · show ¬d <+: (ofEntry names e).names
        rwa [names_ofEntry]
      show ¬d <+: w.names
      rcases hlater w hw with hw | ⟨-, heq⟩ | ⟨entry, hentry, heq⟩
      · exact hcross d hd _ hw
      · rwa [heq]
      · rw [heq]
        exact fun hle => hnot (prefix_of_lt_of_lt hlt (hhere entry hentry) hle)

/-! ### The visits that count -/

theorem foldl_count_leave (r : Removal) (opened : List (List String)) :
    (opened.map leave).foldl Removal.count r = ⟨r.files, r.directories + opened.length⟩ := by
  induction opened generalizing r with
  | nil => rfl
  | cons d opened ih =>
    rw [List.map_cons, List.foldl_cons, ih, List.length_cons]
    show Removal.mk r.files (r.directories + 1 + opened.length) = _
    rw [Nat.add_assoc, Nat.add_comm 1]

theorem count_ofEntry (r : Removal) (names : List String) (e : Entry) :
    r.count (ofEntry names e) =
      ⟨r.files + if e = .directory then 0 else 1, r.directories⟩ := by
  cases e <;> rfl

/-- Each directory is left once, and each other entry is visited once. -/
theorem foldl_count_ofEntries (r : Removal) (opened : List (List String))
    (entries : List (List String × Entry)) :
    (ofEntries opened entries).foldl Removal.count r =
      ⟨r.files + entries.countP fun entry => entry.2 ≠ .directory,
        r.directories + opened.length + entries.countP fun entry => entry.2 = .directory⟩ := by
  induction entries generalizing r opened with
  | nil => exact foldl_count_leave r opened
  | cons entry rest ih =>
    obtain ⟨names, e⟩ := entry
    have hlength := congrArg List.length (List.takeWhile_append_dropWhile
      (p := fun directory : List String => !directory.isPrefixOf names) (l := opened))
    rw [List.length_append] at hlength
    rw [ofEntries_cons, List.foldl_append, foldl_count_leave, List.foldl_cons, count_ofEntry, ih,
      List.length_append, List.countP_cons, List.countP_cons, ← hlength]
    cases e with
    | directory =>
      simp [openedBy]
      omega
    | file _ | link _ =>
      simp [openedBy]
      omega

end Visit

/-! ### The walk through a directory -/

namespace Tree

variable {t : Tree} {l : Location} {names : List String} {e : Entry} {v : Visit}

/-- The visits of a walk through a directory. -/
def visits (t : Tree) (l : Location) : List Visit :=
  .enter [] :: Visit.ofEntries [[]] (t.below l)

theorem walk_of_look {p : Path} (h : t.look p = .ok (l, .directory)) :
    t.walk p = .ok (t.visits l) := by
  rw [walk, h]
  rfl

theorem pairwise_visits (t : Tree) (l : Location) : (t.visits l).Pairwise Visit.Precedes := by
  refine List.pairwise_cons.2 ⟨fun _ _ => trivial, Visit.pairwise_ofEntries
    (List.pairwise_singleton _ _) (fun d hd entry hentry => ?_)
    ((t.pairwise_below l).imp lt_of_compare_eq_lt)⟩
  rw [List.mem_singleton.1 hd]
  obtain ⟨name, rest, heq⟩ := List.exists_cons_of_ne_nil (mem_below.1 hentry).1
  rw [heq]
  exact List.nil_lt_cons name rest

/-- The directory itself is left last. -/
theorem exists_visits_eq (t : Tree) (l : Location) :
    ∃ front, t.visits l = front ++ [.leave []] := by
  obtain ⟨front, hfront⟩ := Visit.exists_ofEntries_eq [] (t.below l)
  rw [List.nil_append] at hfront
  exact ⟨.enter [] :: front, by rw [visits, hfront, List.cons_append]⟩

/-- What is still to be visited has not had its last visit. -/
theorem not_mem_taken {front rest : List Visit} (hvisits : t.visits l = front ++ rest)
    {w : Visit} (hw : w ∈ rest) : w.names ∉ front.filterMap Visit.taken? := by
  have hpairwise := t.pairwise_visits l
  rw [hvisits, List.pairwise_append] at hpairwise
  intro hmem
  obtain ⟨u, hu, htaken⟩ := List.mem_filterMap.1 hmem
  exact (hpairwise.2.2 u hu w hw).names_ne htaken rfl

/-- Until the walk is over the directory itself has not had its last visit. -/
theorem nil_not_mem_taken {front rest : List Visit} (hvisits : t.visits l = front ++ rest)
    (hrest : rest ≠ []) : [] ∉ front.filterMap Visit.taken? := by
  obtain ⟨before, hlast⟩ := t.exists_visits_eq l
  refine not_mem_taken hvisits (w := .leave []) (List.mem_of_getLast? ?_)
  rw [← List.getLast?_append_of_ne_nil front hrest, ← hvisits, hlast, List.getLast?_concat]

/-- Every entry at or below the location is visited. -/
theorem mem_visits_of_get? (hl : t.get? l = some .directory) (he : t.get? (l ++ names) = some e) :
    .ofEntry names e ∈ t.visits l := by
  by_cases hnames : names = []
  · subst hnames
    rw [List.append_nil, hl] at he
    cases he
    exact List.mem_cons_self
  · exact List.mem_cons_of_mem _
      (Visit.mem_ofEntries.2 (Or.inl ⟨(names, e), mem_below.2 ⟨hnames, he⟩, rfl⟩))

/-- And there is a last visit to it. -/
theorem exists_taken_of_get? (hl : t.get? l = some .directory) (he : t.get? (l ++ names) = some e) :
    ∃ v ∈ t.visits l, v.taken? = some names := by
  cases e with
  | directory =>
    refine ⟨.leave names,
      List.mem_cons_of_mem _ (Visit.mem_ofEntries.2 (Or.inr ⟨names, rfl, ?_⟩)), rfl⟩
    by_cases hnames : names = []
    · exact Or.inl (List.mem_singleton.2 hnames)
    · exact Or.inr (mem_below.2 ⟨hnames, he⟩)
  | file bytes | link target => exact ⟨_, mem_visits_of_get? hl he, rfl⟩

/-- When a directory is left, everything in it has had its last visit. -/
theorem mem_taken_of_leave (hl : t.get? l = some .directory) {front rest : List Visit}
    (hvisits : t.visits l = front ++ .leave names :: rest) {more : List String} (hmore : more ≠ [])
    (he : t.get? (l ++ (names ++ more)) = some e) :
    names ++ more ∈ front.filterMap Visit.taken? := by
  obtain ⟨u, hu, htaken⟩ := exists_taken_of_get? hl he
  rw [hvisits] at hu
  rcases List.mem_append.1 hu with hu | hu
  · exact List.mem_filterMap.2 ⟨u, hu, htaken⟩
  rcases List.mem_cons.1 hu with rfl | hu
  · exact absurd (Option.some.inj htaken) (by simp [hmore])
  · have hpairwise := t.pairwise_visits l
    rw [hvisits, List.pairwise_append, List.pairwise_cons] at hpairwise
    refine absurd ?_ (hpairwise.2.1.1 u hu)
    rw [Visit.names_of_taken htaken]
    exact List.prefix_append names more

/-- What is visited is there, and a departure is from a directory. -/
theorem get?_of_mem_visits (hl : t.get? l = some .directory) (hv : v ∈ t.visits l) :
    ∃ e, t.get? (l ++ v.names) = some e ∧
      (v = .ofEntry v.names e ∨ v = .leave v.names ∧ e = .directory) := by
  rcases List.mem_cons.1 hv with rfl | hv
  · exact ⟨.directory, by rwa [Visit.names, List.append_nil], Or.inl rfl⟩
  rcases Visit.mem_ofEntries.1 hv with ⟨⟨names, e⟩, hentry, rfl⟩ | ⟨d, rfl, hd | hd⟩
  · rw [Visit.names_ofEntry]
    exact ⟨e, (mem_below.1 hentry).2, Or.inl rfl⟩
  · rw [List.mem_singleton.1 hd]
    exact ⟨.directory, by rwa [Visit.names, List.append_nil], Or.inr ⟨rfl, rfl⟩⟩
  · exact ⟨.directory, (mem_below.1 hd).2, Or.inr ⟨rfl, rfl⟩⟩

end Tree

end Branding
