import Branding.Files.Walk
import Branding.Proofs.Tree.Find

/-!
# What a walk visits

The visits of a walk come in the order of the entries, with the departures from directories put in
between. The directory that the walk starts in stays open until the end, so the last visit is the
departure from it. The files that are visited are those among the entries, in their order, and none
is visited twice.

## Main definitions

* `Visit.names` — the names that lead to a visit
* `Visit.ofEntry`, `Visit.openedBy` — the visit that comes to an entry, and what it opens
* `Tree.files` — the files that a walk visits

## Main results

* `Visit.mem_ofEntries` — what a walk visits
* `Visit.exists_ofEntries_eq` — a walk ends where it has begun
* `Visit.filterMap_file?_ofEntries` — the files that a walk visits
* `Tree.mem_files`, `Tree.nodup_files` — every file comes once
* `Tree.files_congr` — and the files of two trees come in the same order
* `Tree.walk_eq_ok` — the visits of a walk, by what it starts at
-/

namespace Branding

namespace Visit

/-- The names that lead to a visit. -/
def names : Visit → List String
  | .enter names | .leave names | .file names | .link names => names

/-- The visit that comes to an entry. -/
def ofEntry (names : List String) : Entry → Visit
  | .directory => enter names
  | .file _ => file names
  | .link _ => link names

theorem names_ofEntry (names : List String) (e : Entry) : (ofEntry names e).names = names := by
  cases e <;> rfl

/-- What a visit to an entry opens: a directory opens itself. -/
def openedBy (names : List String) : Entry → List (List String)
  | .directory => [names]
  | .file _ | .link _ => []

theorem mem_openedBy {names d : List String} {e : Entry} :
    d ∈ openedBy names e ↔ d = names ∧ e = .directory := by
  cases e <;> simp [openedBy]

theorem ofEntries_cons (opened : List (List String)) (names : List String) (e : Entry)
    (rest : List (List String × Entry)) :
    ofEntries opened ((names, e) :: rest) =
      (opened.takeWhile fun directory => !directory.isPrefixOf names).map leave ++
        ofEntry names e ::
          ofEntries (openedBy names e ++
            opened.dropWhile fun directory => !directory.isPrefixOf names) rest := by
  cases e <;> rfl

/-- A visit comes to an entry, or it is the departure from a directory, be it among the entries or
open already. -/
theorem mem_ofEntries {opened : List (List String)} {entries : List (List String × Entry)}
    {v : Visit} : v ∈ ofEntries opened entries ↔
      (∃ entry ∈ entries, v = ofEntry entry.1 entry.2) ∨
        ∃ d, v = leave d ∧ (d ∈ opened ∨ (d, .directory) ∈ entries) := by
  induction entries generalizing opened with
  | nil =>
    rw [ofEntries, List.mem_map]
    simp only [List.not_mem_nil, false_and, exists_false, or_false, false_or]
    exact exists_congr fun d => and_comm.trans (and_congr_left' eq_comm)
  | cons entry rest ih =>
    obtain ⟨names, e⟩ := entry
    have hcut : ∀ d, d ∈ opened ↔
        d ∈ (opened.takeWhile fun directory => !directory.isPrefixOf names) ∨
          d ∈ opened.dropWhile fun directory => !directory.isPrefixOf names := by
      intro d
      rw [← List.mem_append, List.takeWhile_append_dropWhile]
    rw [ofEntries_cons, List.mem_append, List.mem_cons, List.mem_map, ih]
    simp only [List.mem_append, List.mem_cons, exists_eq_or_imp, mem_openedBy, hcut, Prod.mk.injEq]
    constructor
    · rintro (⟨d, hd, rfl⟩ | hhere | hentry | ⟨d, rfl, (⟨rfl, rfl⟩ | hd) | hd⟩)
      · exact Or.inr ⟨d, rfl, Or.inl (Or.inl hd)⟩
      · exact Or.inl (Or.inl hhere)
      · exact Or.inl (Or.inr hentry)
      · exact Or.inr ⟨d, rfl, Or.inr (Or.inl ⟨rfl, rfl⟩)⟩
      · exact Or.inr ⟨d, rfl, Or.inl (Or.inr hd)⟩
      · exact Or.inr ⟨d, rfl, Or.inr (Or.inr hd)⟩
    · rintro ((hhere | hentry) | ⟨d, rfl, (hd | hd) | (⟨rfl, rfl⟩ | hd)⟩)
      · exact Or.inr (Or.inl hhere)
      · exact Or.inr (Or.inr (Or.inl hentry))
      · exact Or.inl ⟨d, hd, rfl⟩
      · exact Or.inr (Or.inr (Or.inr ⟨d, rfl, Or.inl (Or.inr hd)⟩))
      · exact Or.inr (Or.inr (Or.inr ⟨d, rfl, Or.inl (Or.inl ⟨rfl, rfl⟩)⟩))
      · exact Or.inr (Or.inr (Or.inr ⟨d, rfl, Or.inr hd⟩))

/-- A visit is the departure from a directory that was open, or it is to an entry. -/
theorem leave_or_mem_of_mem_ofEntries {opened : List (List String)}
    {entries : List (List String × Entry)} {v : Visit} (h : v ∈ ofEntries opened entries) :
    (∃ names ∈ opened, v = .leave names) ∨ v.names ∈ entries.map Prod.fst := by
  rcases mem_ofEntries.1 h with ⟨entry, hentry, rfl⟩ | ⟨d, rfl, hd | hd⟩
  · rw [names_ofEntry]
    exact Or.inr (List.mem_map_of_mem hentry)
  · exact Or.inl ⟨d, hd, rfl⟩
  · exact Or.inr (List.mem_map.2 ⟨_, hd, rfl⟩)

theorem exists_dropWhile_append_eq (opened : List (List String)) (names : List String) :
    ∃ opened', (opened ++ [[]]).dropWhile (fun directory => !directory.isPrefixOf names) =
      opened' ++ [[]] := by
  induction opened with
  | nil => exact ⟨[], rfl⟩
  | cons directory opened ih =>
    rw [List.cons_append, List.dropWhile_cons]
    split
    · exact ih
    · exact ⟨directory :: opened, rfl⟩

/-- A walk ends with the departure from where it has begun. -/
theorem exists_ofEntries_eq (opened : List (List String)) (entries : List (List String × Entry)) :
    ∃ front, ofEntries (opened ++ [[]]) entries = front ++ [leave []] := by
  induction entries generalizing opened with
  | nil => exact ⟨opened.map leave, by simp [ofEntries]⟩
  | cons entry rest ih =>
    obtain ⟨names, e⟩ := entry
    obtain ⟨opened', hopened⟩ := exists_dropWhile_append_eq opened names
    obtain ⟨front, hfront⟩ := ih (openedBy names e ++ opened')
    rw [List.append_assoc] at hfront
    rw [ofEntries_cons, hopened, hfront, ← List.cons_append, ← List.append_assoc]
    exact ⟨_, rfl⟩

/-- Where nothing is visited there is nothing. -/
theorem eq_nil_of_ofEntries {entries : List (List String × Entry)} (h : ofEntries [] entries = []) :
    entries = [] := by
  cases entries with
  | nil => rfl
  | cons entry rest =>
    obtain ⟨names, e⟩ := entry
    rw [ofEntries_cons] at h
    simp at h

/-- The names of an entry that is a file. -/
def namesOfFile? : List String × Entry → Option (List String)
  | (names, .file _) => some names
  | _ => none

theorem filterMap_file?_map_leave (opened : List (List String)) :
    (opened.map leave).filterMap file? = [] := by
  rw [List.filterMap_map, List.filterMap_eq_nil_iff]
  exact fun _ _ => rfl

/-- The files that a walk visits are those among the entries, in their order. -/
theorem filterMap_file?_ofEntries (opened : List (List String))
    (entries : List (List String × Entry)) :
    (ofEntries opened entries).filterMap file? = entries.filterMap namesOfFile? := by
  induction entries generalizing opened with
  | nil => exact filterMap_file?_map_leave opened
  | cons entry rest ih =>
    obtain ⟨names, e⟩ := entry
    rw [ofEntries_cons, List.filterMap_append, filterMap_file?_map_leave, List.nil_append,
      List.filterMap_cons, ih]
    cases e <;> rfl

end Visit

namespace Tree

theorem eq_append_of_namesFrom? {l m : Location} {e e' : Entry} {names : List String}
    (h : ((namesFrom? l m).bind fun names => if names = [] then none else some (names, e)) =
      some (names, e')) : m = l ++ names := by
  obtain ⟨found, hfound, hrest⟩ := Option.bind_eq_some_iff.1 h
  split at hrest
  · cases hrest
  · cases hrest
    exact namesFrom?_eq_some_iff.1 hfound

theorem compare_append_left (l a b : Location) : compare (l ++ a) (l ++ b) = compare a b := by
  induction l with
  | nil => rfl
  | cons name l ih =>
    rw [List.cons_append, List.cons_append]
    have hself : compare name name = .eq := Std.ReflCmp.compare_self
    show List.compareLex compare _ _ = _
    rw [List.compareLex_cons_cons, hself]
    exact ih

/-- The entries below a location come in the order of the names that lead there. -/
theorem pairwise_below (t : Tree) (l : Location) :
    (t.below l).Pairwise fun entry entry' => compare entry.1 entry'.1 = .lt := by
  rw [below]
  refine List.Pairwise.filterMap _ (fun m m' hlt => ?_) t.entries.ordered_keys_toList
  rintro ⟨names, e⟩ h ⟨names', e'⟩ h'
  rw [eq_append_of_namesFrom? h, eq_append_of_namesFrom? h', compare_append_left] at hlt
  exact hlt

/-- The files that a walk from a directory visits. -/
def files (t : Tree) (l : Location) : List (List String) :=
  (t.below l).filterMap Visit.namesOfFile?

theorem mem_files {t : Tree} {l : Location} {names : List String} :
    names ∈ t.files l ↔ names ≠ [] ∧ ∃ bytes, t.get? (l ++ names) = some (.file bytes) := by
  rw [files, List.mem_filterMap]
  constructor
  · rintro ⟨⟨names', e⟩, hmem, he⟩
    rw [mem_below] at hmem
    cases e with
    | directory | link target => cases he
    | file bytes =>
      cases he
      exact ⟨hmem.1, bytes, hmem.2⟩
  · rintro ⟨hne, bytes, hbytes⟩
    exact ⟨(names, .file bytes), mem_below.2 ⟨hne, hbytes⟩, rfl⟩

theorem pairwise_files (t : Tree) (l : Location) :
    (t.files l).Pairwise fun names names' => compare names names' = .lt := by
  have hfst : ∀ {entry : List String × Entry} {names : List String},
      Visit.namesOfFile? entry = some names → entry.1 = names := by
    rintro ⟨found, e⟩ names he
    cases e with
    | directory | link target => cases he
    | file bytes => exact Option.some.inj he
  refine List.Pairwise.filterMap _ (fun entry entry' hlt => ?_) (t.pairwise_below l)
  rintro names h names' h'
  rwa [hfst h, hfst h'] at hlt

theorem nodup_files (t : Tree) (l : Location) : (t.files l).Nodup := by
  refine (t.pairwise_files l).imp ?_
  rintro names _ hlt rfl
  have hself : compare names names = .eq := Std.ReflCmp.compare_self
  rw [hself] at hlt
  cases hlt

/-- Where two trees have the same files, walks visit them in the same order. -/
theorem files_congr {t t' : Tree} {l l' : Location}
    (h : ∀ names, (∃ bytes, t.get? (l ++ names) = some (.file bytes)) ↔
      ∃ bytes, t'.get? (l' ++ names) = some (.file bytes)) : t.files l = t'.files l' := by
  refine List.Perm.eq_of_pairwise (fun names names' _ _ hlt hgt => ?_) (t.pairwise_files l)
    (t'.pairwise_files l') ?_
  · rw [← Std.OrientedCmp.gt_iff_lt, hlt] at hgt
    cases hgt
  · rw [List.perm_ext_iff_of_nodup (t.nodup_files l) (t'.nodup_files l')]
    intro names
    rw [mem_files, mem_files, h]

/-- The visits of a walk from where something is found. A walk may start at a link, which is visited
after the directory behind it has been gone into. -/
theorem walk_eq_ok {t : Tree} {p : Path} {l : Location} {e : Entry} (hfind : t.find p = .ok (l, e))
    {visits : List Visit} (h : t.walk p = .ok visits) :
    e = .directory ∧ visits = .enter [] :: Visit.ofEntries [[]] (t.below l) ∨
      ∃ m e', e' ≠ .directory ∧ t.look p = .ok (m, e') ∧ (m = l ∨ ∃ target, e' = .link target) ∧
        (e ≠ .directory ∧ (visits = [.file []] ∨ visits = [.link []]) ∨
          e = .directory ∧ visits = .enter [] :: .link [] :: Visit.ofEntries [] (t.below l)) := by
  unfold walk at h
  cases hlook : t.look p with
  | error r => rw [hlook] at h; cases h
  | ok found =>
    obtain ⟨m, e'⟩ := found
    rw [hlook] at h
    have hsame : (∀ target, e' ≠ .link target) → l = m ∧ e = e' := by
      intro he'
      obtain ⟨hadm, hlands⟩ := look_eq_ok_iff.1 hlook
      have hfind' := find_eq_ok_iff.2 ⟨hadm, hlands.follow_of_hold he'⟩
      rw [hfind] at hfind'
      cases hfind'
      exact ⟨rfl, rfl⟩
    cases e' with
    | directory =>
      obtain ⟨rfl, rfl⟩ := hsame (by simp)
      cases h
      exact Or.inl ⟨rfl, rfl⟩
    | file bytes =>
      obtain ⟨rfl, rfl⟩ := hsame (by simp)
      cases h
      exact Or.inr ⟨l, .file bytes, by simp, rfl, Or.inl rfl, Or.inl ⟨by simp, Or.inl rfl⟩⟩
    | link target =>
      rw [hfind] at h
      refine Or.inr ⟨m, .link target, by simp, rfl, Or.inr ⟨target, rfl⟩, ?_⟩
      cases e with
      | directory =>
        cases h
        exact Or.inr ⟨rfl, rfl⟩
      | file bytes | link target' =>
        cases h
        exact Or.inl ⟨by simp, Or.inr rfl⟩

/-- A walk goes into a directory that its path leads to. -/
theorem closed?_eq_none_iff {t : Tree} {p : Path} :
    t.closed? p = none ↔ ∃ l, t.find p = .ok (l, .directory) := by
  unfold closed?
  cases t.find p with
  | error r => simp
  | ok found =>
    obtain ⟨l, e⟩ := found
    cases e <;> simp

/-- The files that a walk visits are those in the directory that its start leads to. -/
theorem filterMap_file?_of_walk {t : Tree} {p : Path} {l : Location}
    (hfind : t.find p = .ok (l, .directory)) {visits : List Visit} (h : t.walk p = .ok visits) :
    visits.filterMap Visit.file? = t.files l := by
  rcases walk_eq_ok hfind h with ⟨-, rfl⟩ | ⟨m, e, -, -, -, ⟨he, -⟩ | ⟨-, rfl⟩⟩
  · exact Visit.filterMap_file?_ofEntries _ _
  · exact absurd rfl he
  · exact Visit.filterMap_file?_ofEntries _ _

end Tree

end Branding
