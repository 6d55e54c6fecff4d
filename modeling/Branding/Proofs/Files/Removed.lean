import Branding.Proofs.Files.Clean
import Branding.Proofs.Files.Departures
import Mathlib.Data.Set.Card

/-!
# A removal counts what it takes away

A removal and its preview make the same walk, so where both succeed they count the same: the
directories at and below a location, and all other entries there, links among them. The preview
leaves everything, and the removal leaves nothing of it.

The preview succeeds wherever the system lets it go into every directory, but the removal asks for
more. The directory itself is removed last, by the path that was given, when nothing is left in it.
A path that ends in a dot is refused then, and so is one that goes through a directory within the
one to be removed. Where that is so everything else is gone already.

## Main definitions

* `Tree.tally` — how much there is at and below a location
* `Tree.Enterable`, `Tree.Removable` — what the preview and the removal ask for
* `Tree.Without` — some entries at or below a location are gone

## Main results

* `Files.forM_removeAt_of_removable` — every step of a removal succeeds, and what is gone then
* `Files.clean_eq_ok_iff` — when a removal and its preview succeed, with what they count and leave
-/

namespace Branding

namespace Tree

variable {t s s' c : Tree} {p : Path} {l m : Location} {names : List String}
  {gone : List (List String)}

/-! ### How much there is -/

/-- How much there is at and below a location: the directories, and all other entries. -/
noncomputable def tally (t : Tree) (l : Location) : Removal where
  files := {m | l <+: m ∧ ∃ e, t.get? m = some e ∧ e ≠ .directory}.ncard
  directories := {m | l <+: m ∧ t.get? m = some .directory}.ncard

/-- Entries below a location, counted. -/
theorem ncard_below (t : Tree) (l : Location) (P : Entry → Prop) [DecidablePred P] :
    {m | l <+: m ∧ m ≠ l ∧ ∃ e, t.get? m = some e ∧ P e}.ncard =
      (t.below l).countP fun entry => P entry.2 := by
  have hnodup :
      (((t.below l).filter fun entry => P entry.2).map fun entry => l ++ entry.1).Nodup := by
    rw [List.Nodup, List.pairwise_map]
    refine ((t.pairwise_below l).imp fun {entry entry'} hlt heq => ?_).filter _
    rw [List.append_cancel_left heq] at hlt
    exact (lt_of_compare_eq_lt hlt).ne rfl
  have hset : {m | l <+: m ∧ m ≠ l ∧ ∃ e, t.get? m = some e ∧ P e} =
      ((((t.below l).filter fun entry => P entry.2).map fun entry => l ++ entry.1).toFinset :
        Set Location) := by
    ext m
    simp only [Set.mem_ofPred_eq, List.coe_toFinset, List.mem_map, List.mem_filter,
      decide_eq_true_eq]
    constructor
    · rintro ⟨⟨names, rfl⟩, hne, e, he, hP⟩
      exact ⟨(names, e), ⟨mem_below.2 ⟨by simpa using hne, he⟩, hP⟩, rfl⟩
    · rintro ⟨⟨names, e⟩, ⟨hentry, hP⟩, rfl⟩
      obtain ⟨hne, he⟩ := mem_below.1 hentry
      exact ⟨List.prefix_append l names, by simpa using hne, e, he, hP⟩
  rw [hset, Set.ncard_coe_finset, List.toFinset_card_of_nodup hnodup, List.length_map,
    List.countP_eq_length_filter]

/-- A walk through a directory counts all that is at and below it. -/
theorem ofVisits_visits (hl : t.get? l = some .directory) :
    Removal.ofVisits (t.visits l) = t.tally l := by
  have hfiles : {m | l <+: m ∧ ∃ e, t.get? m = some e ∧ e ≠ .directory} =
      {m | l <+: m ∧ m ≠ l ∧ ∃ e, t.get? m = some e ∧ e ≠ .directory} := by
    ext m
    refine and_congr_right fun _ => ⟨fun h => ⟨?_, h⟩, And.right⟩
    rintro rfl
    obtain ⟨e, he, hne⟩ := h
    rw [hl] at he
    exact hne (Option.some.inj he).symm
  have hdirectories : {m | l <+: m ∧ t.get? m = some .directory} =
      insert l {m | l <+: m ∧ m ≠ l ∧ ∃ e, t.get? m = some e ∧ e = .directory} := by
    ext m
    by_cases hm : m = l
    · simp [hm, hl]
    · simp [hm]
  have hfinite : {m | l <+: m ∧ m ≠ l ∧ ∃ e, t.get? m = some e ∧ e = .directory}.Finite := by
    refine ((t.below l).map fun entry => l ++ entry.1).toFinset.finite_toSet.subset ?_
    rintro _ ⟨⟨names, rfl⟩, hne, e, he, -⟩
    rw [List.coe_toFinset]
    exact List.mem_map.2 ⟨(names, e), mem_below.2 ⟨by simpa using hne, he⟩, rfl⟩
  rw [tally, hfiles, hdirectories, Set.ncard_insert_of_notMem (by simp) hfinite, ncard_below,
    ncard_below]
  refine (Visit.foldl_count_ofEntries Removal.none [[]] (t.below l)).trans ?_
  simp [Removal.none, Nat.add_comm]

/-! ### What is asked for -/

/-- The system takes the path to every directory at and below a location. -/
def Enterable (t : Tree) (p : Path) (l : Location) : Prop :=
  ∀ names, t.get? (l ++ names) = some .directory → (p.descend names).Admissible

/-- Everything below a location is gone, and nothing else. -/
def Emptied (t : Tree) (l : Location) (c : Tree) : Prop :=
  ∀ m, c.get? m = if l <+: m ∧ m ≠ l then none else t.get? m

/-- What it takes to remove a directory with all that is in it. The system takes the path to
everything there. The directory is not the root, and the path calls it by its name. When nothing is
left in it, the path leads there still. -/
structure Removable (t : Tree) (p : Path) (l : Location) : Prop where
  admissible : ∀ names e, t.get? (l ++ names) = some e → (p.descend names).Admissible
  ne_root : l ≠ []
  not_dot : Edit.lastWritten? p ≠ some "."
  not_up : Edit.lastWritten? p ≠ some ".."
  last : ∃ c, t.Emptied l c ∧ c.land .name p = .ok (.occupied l .directory)

/-! ### What is left in the middle of a removal -/

/-- The entries at some names from a location are gone, and nothing else has become different. -/
structure Without (t : Tree) (l : Location) (gone : List (List String)) (s : Tree) : Prop where
  here : ∀ names ∈ gone, s.get? (l ++ names) = none
  elsewhere : ∀ m, (∀ names ∈ gone, l ++ names ≠ m) → s.get? m = t.get? m

namespace Without

theorem refl (t : Tree) (l : Location) : t.Without l [] t := ⟨by simp, fun _ _ => rfl⟩

theorem get?_append (h : t.Without l gone s) (hnames : names ∉ gone) :
    s.get? (l ++ names) = t.get? (l ++ names) :=
  h.elsewhere _ fun _ hmem heq => hnames (List.append_cancel_left heq ▸ hmem)

theorem get?_append_eq_none (h : t.Without l gone s) (hnone : t.get? (l ++ names) = none) :
    s.get? (l ++ names) = none := by
  by_cases hnames : names ∈ gone
  · exact h.here names hnames
  · rw [h.get?_append hnames, hnone]

/-- One more entry is gone. -/
theorem sets (h : t.Without l gone s) (hsets : s.Sets (l ++ names) none s') :
    t.Without l (gone ++ [names]) s' where
  here names' hmem := by
    rw [hsets]
    split
    · rfl
    next hne =>
      rcases List.mem_append.1 hmem with hmem | hmem
      · exact h.here names' hmem
      · exact absurd (by rw [List.mem_singleton.1 hmem]) hne
  elsewhere m hm := by
    rw [hsets.elsewhere fun heq => hm names (by simp) heq.symm]
    exact h.elsewhere m fun names' hmem => hm names' (List.mem_append_left _ hmem)

/-- While the directory itself is there, so is what there is in the end. -/
theorem within (h : t.Without l gone s) (hroot : [] ∉ gone) (hc : t.Emptied l c) : c.Within s := by
  intro m e he
  rw [hc] at he
  split at he
  · cases he
  next hnot =>
    rw [h.elsewhere m, he]
    rintro names hmem rfl
    have hnil : names = [] := by
      by_contra hne
      exact hnot ⟨List.prefix_append l names, by simpa using hne⟩
    exact hroot (hnil ▸ hmem)

/-- A directory is empty when everything in it is gone. -/
theorem names_eq_nil (h : t.Without l gone s)
    (hgone : ∀ name e, t.get? (l ++ (names ++ [name])) = some e → names ++ [name] ∈ gone) :
    s.names (l ++ names) = [] := by
  rw [List.eq_nil_iff_forall_not_mem]
  intro name hname
  rw [mem_names_iff, List.append_assoc] at hname
  have hnone : s.get? (l ++ (names ++ [name])) = none := by
    cases he : t.get? (l ++ (names ++ [name])) with
    | none => exact h.get?_append_eq_none he
    | some e => exact h.here _ (hgone name e he)
  rw [hnone] at hname
  cases hname

/-- Nothing is left when everything is gone. -/
theorem get?_eq (h : t.Without l gone s)
    (hall : ∀ names e, t.get? (l ++ names) = some e → names ∈ gone) (m : Location) :
    s.get? m = if l <+: m then none else t.get? m := by
  split
  next hm =>
    obtain ⟨names, rfl⟩ := hm
    cases he : t.get? (l ++ names) with
    | none => exact h.get?_append_eq_none he
    | some e => exact h.here names (hall names e he)
  next hm =>
    refine h.elsewhere m ?_
    rintro names - rfl
    exact hm (List.prefix_append l names)

end Without

/-- A directory below a directory is found by its names. -/
theorem find_descend_of_get? (hfind : s.find p = .ok (l, .directory))
    (hnames : ∀ name ∈ names, IsName name) (hadm : (p.descend names).Admissible)
    (he : s.get? (l ++ names) = some .directory) :
    s.find (p.descend names) = .ok (l ++ names, .directory) := by
  by_cases hne : names = []
  · rw [hne, List.append_nil]
    exact hfind
  · have hmode : LastName.follow ≠ .create := by decide
    rw [find_eq_ok_iff, ← land_eq_ok_iff]
    exact land_descend_of_get? hfind hmode hne hnames hadm he (Or.inr (by simp))

end Tree

/-! ### Paths that end in a name -/

theorem Path.exists_segments_descend (p : Path) {names : List String} (hne : names ≠ [])
    (h : ∀ name ∈ names, IsName name) :
    ∃ front name, IsName name ∧ (p.descend names).segments = front ++ [name] := by
  obtain ⟨before, name, rfl⟩ := (List.eq_nil_or_concat names).resolve_left hne
  rw [List.concat_eq_append] at h ⊢
  rw [descend_concat]
  obtain ⟨front, hfront⟩ := exists_segments_child (p.descend before) name
  exact ⟨front, name, h name (by simp), hfront⟩

namespace Edit

variable {s : Tree} {p : Path} {l : Location} {names : List String}

/-- A file or a link below a directory is taken away. -/
theorem unlink_descend (hfind : s.find p = .ok (l, .directory)) (hne : names ≠ [])
    (hnames : ∀ name ∈ names, IsName name) (hadm : (p.descend names).Admissible) {e : Entry}
    (he : s.get? (l ++ names) = some e) (hfile : e ≠ .directory) :
    unlink (p.descend names) s = (.ok (), s.drop (l ++ names)) := by
  have hmode : LastName.name ≠ .create := by decide
  obtain ⟨front, name, hname, hsegments⟩ := p.exists_segments_descend hne hnames
  refine unlink_of_land
    (Tree.land_descend_of_get? hfind hmode hne hnames hadm he (Or.inl rfl)) hfile ?_
  rw [hsegments, List.getLast?_concat]
  exact fun heq => hname.1 (Option.some.inj heq)

/-- A directory below a directory is taken away when it is empty. -/
theorem removeDirectory_descend (hfind : s.find p = .ok (l, .directory)) (hne : names ≠ [])
    (hnames : ∀ name ∈ names, IsName name) (hadm : (p.descend names).Admissible)
    (he : s.get? (l ++ names) = some .directory) (hempty : s.names (l ++ names) = []) :
    removeDirectory (p.descend names) s = (.ok (), s.drop (l ++ names)) := by
  have hmode : LastName.name ≠ .create := by decide
  obtain ⟨front, name, hname, hsegments⟩ := p.exists_segments_descend hne hnames
  have hlast : lastWritten? (p.descend names) = some name := by
    rw [lastWritten?, hsegments, List.reverse_concat, List.find?_cons_of_pos]
    simpa using hname.1
  rw [removeDirectory_eq_ok_iff, hlast]
  exact ⟨_, Tree.land_descend_of_get? hfind hmode hne hnames hadm he (Or.inl rfl),
    fun heq => hname.2.1 (Option.some.inj heq), fun heq => hname.2.2 (Option.some.inj heq),
    by simp [hne], hempty, rfl⟩

end Edit

namespace Files

variable {t t' s : Tree} {p : Path} {l m : Location}

theorem removeAt_enter_of_find {names : List String}
    (h : s.find (p.descend names) = .ok (m, .directory)) :
    removeAt p (.enter names) s = (.ok (), s) := by
  rw [removeAt, get_bind_apply, Tree.closed?_eq_none_iff.2 ⟨m, h⟩]
  rfl

/-- One step of a removal that can be made. What it is the last visit to is there still, and where
that is a directory, nothing is left in it. -/
theorem removeAt_of_removable (ht : t.Named) (hl : t.get? l = some .directory)
    (hr : t.Removable p l) {front rest : List Visit} {v : Visit}
    (hvisits : t.visits l = front ++ v :: rest)
    (hs : t.Without l (front.filterMap Visit.taken?) s) :
    ∃ s', removeAt p v s = (.ok (), s') ∧
      t.Without l ((front ++ [v]).filterMap Visit.taken?) s' := by
  obtain ⟨c, hc, hland⟩ := hr.last
  have hland := (hs.within (Tree.nil_not_mem_taken hvisits (by simp)) hc).land_occupied hland
  have hfind := Tree.find_of_land_directory hland
  obtain ⟨e, he, hkind⟩ := Tree.get?_of_mem_visits hl (v := v) (by rw [hvisits]; simp)
  have hnames : ∀ name ∈ v.names, IsName name :=
    fun name hname => ht.isName_of_mem he name (List.mem_append_right l hname)
  have hadm := hr.admissible _ _ he
  have hget := (hs.get?_append (Tree.not_mem_taken hvisits List.mem_cons_self)).trans he
  rw [List.filterMap_append]
  cases v with
  | enter names =>
    obtain rfl : e = .directory := by
      rcases hkind with hkind | ⟨hkind, -⟩
      · exact Visit.enter_eq_ofEntry.1 hkind
      · cases hkind
    refine ⟨s, removeAt_enter_of_find (Tree.find_descend_of_get? hfind hnames hadm hget), ?_⟩
    rwa [show [Visit.enter names].filterMap Visit.taken? = [] from rfl, List.append_nil]
  | leave names =>
    obtain rfl : e = .directory := by
      rcases hkind with hkind | ⟨-, hkind⟩
      · exact absurd hkind Visit.leave_ne_ofEntry
      · exact hkind
    have hempty : s.names (l ++ names) = [] :=
      hs.names_eq_nil fun name e' he' => Tree.mem_taken_of_leave hl hvisits (by simp) he'
    refine ⟨s.drop (l ++ names), adapt_eq_ok.2 (adapt_eq_ok.2 ?_),
      hs.sets (.drop hempty (by simp [hr.ne_root]))⟩
    by_cases hne : names = []
    · subst hne
      rw [List.append_nil] at hempty ⊢
      exact Edit.removeDirectory_eq_ok_iff.2
        ⟨l, hland, hr.not_dot, hr.not_up, hr.ne_root, hempty, rfl⟩
    · exact Edit.removeDirectory_descend hfind hne hnames hadm hget hempty
  | file names | link names =>
    have hfile : e ≠ .directory := by
      rintro rfl
      rcases hkind with hkind | ⟨hkind, -⟩
      · cases hkind
      · cases hkind
    have hne : names ≠ [] := by
      rintro rfl
      rw [Visit.names, List.append_nil, hl] at he
      exact hfile (Option.some.inj he).symm
    have hempty : s.names (l ++ names) = [] :=
      Tree.names_eq_nil fun hdir => hfile (Option.some.inj (hget.symm.trans hdir))
    exact ⟨_, adapt_eq_ok.2 (adapt_eq_ok.2 (Edit.unlink_descend hfind hne hnames hadm hget hfile)),
      hs.sets (.drop hempty (by simp [hne]))⟩

/-- The rest of a removal that can be made, from any step on. -/
theorem forM_removeAt_of_removable (ht : t.Named) (hl : t.get? l = some .directory)
    (hr : t.Removable p l) {front rest : List Visit} (hvisits : t.visits l = front ++ rest)
    (hs : t.Without l (front.filterMap Visit.taken?) s) :
    ∃ s', rest.forM (removeAt p) s = (.ok (), s') ∧
      t.Without l ((t.visits l).filterMap Visit.taken?) s' := by
  induction rest generalizing front s with
  | nil =>
    rw [List.append_nil] at hvisits
    exact ⟨s, rfl, hvisits ▸ hs⟩
  | cons v rest ih =>
    obtain ⟨s₁, hv, hs₁⟩ := removeAt_of_removable ht hl hr hvisits hs
    rw [List.append_cons] at hvisits
    obtain ⟨s', hrest, hs'⟩ := ih hvisits hs₁
    exact ⟨s', forM_cons_eq_ok.2 ⟨s₁, hv, hrest⟩, hs'⟩

/-! ### Where a removal succeeds -/

/-- What has been visited is called by a path that the system takes. -/
theorem admissible_of_removeAt {v : Visit} {u : Unit} (h : removeAt p v s = (.ok u, t')) :
    (p.descend v.names).Admissible := by
  by_contra hadm
  obtain ⟨fault, hfail⟩ := removeAt_eq_error (p := p) (s := s) (v := v)
    fun mode x hland => hadm (Tree.land_eq_ok_iff.1 hland).1
  rw [h] at hfail
  cases hfail

theorem removable_of_forM (ht : t.Named) (hfind : t.find p = .ok (l, .directory))
    (h : (t.visits l).forM (removeAt p) t = (.ok (), t')) : t.Removable p l := by
  have hl := Tree.get?_of_find hfind
  obtain ⟨c, hclears, hremove⟩ := exists_last_of_forM ht hfind h
  obtain ⟨m, hland, hdot, hup, hroot, hempty, -⟩ := Edit.removeDirectory_eq_ok_iff.1 hremove
  obtain rfl : m = l := by
    have hfound := hclears.within.find (Tree.find_of_land_directory hland)
    rw [hfind] at hfound
    cases hfound
    rfl
  refine ⟨fun names e he => ?_, hroot, hdot, hup, c, fun m' => ?_, hland⟩
  · obtain ⟨s, s', hvisit⟩ := exists_of_forM_eq_ok h (Tree.mem_visits_of_get? hl he)
    have hadm := admissible_of_removeAt hvisit
    rwa [Visit.names_ofEntry] at hadm
  · split
    next hm =>
      obtain ⟨⟨more, rfl⟩, hne⟩ := hm
      exact Tree.get?_append_of_names_eq_nil hempty (by simpa using hne)
    next hm =>
      by_cases hle : m <+: m'
      · obtain rfl : m' = m := by_contra fun hne => hm ⟨hle, hne⟩
        rw [Tree.get?_of_find (Tree.find_of_land_directory hland), hl]
      · exact hclears.elsewhere hle

/-- A preview goes into every directory and does nothing else. -/
theorem forM_enterAt_eq_ok_iff (ht : t.Named) (hfind : t.find p = .ok (l, .directory)) :
    (t.visits l).forM (enterAt p) t = (.ok (), t') ↔ t.Enterable p l ∧ t' = t := by
  have hl := Tree.get?_of_find hfind
  constructor
  · intro h
    refine ⟨fun names he => ?_, (Moves.forM (fun v _ => moves_enterAt p v)).of_eq_ok h ▸ rfl⟩
    obtain ⟨s, s', hvisit⟩ := exists_of_forM_eq_ok h (Tree.mem_visits_of_get? hl he)
    exact admissible_of_removeAt (v := .enter names) hvisit
  · rintro ⟨henter, rfl⟩
    refine forM_eq_ok_of_forall fun v hv => ?_
    cases v with
    | leave names | file names | link names => rfl
    | enter names =>
      obtain ⟨e, he, hkind⟩ := Tree.get?_of_mem_visits hl hv
      obtain rfl : e = .directory := by
        rcases hkind with hkind | ⟨hkind, -⟩
        · exact Visit.enter_eq_ofEntry.1 hkind
        · cases hkind
      refine removeAt_enter_of_find (Tree.find_descend_of_get? hfind ?_ (henter names he) he)
      exact fun name hname => ht.isName_of_mem he name (List.mem_append_right l hname)

/-- A removal succeeds where the directory is removable, and leaves nothing of it. -/
theorem forM_removeAt_eq_ok_iff (ht : t.Named) (hfind : t.find p = .ok (l, .directory)) :
    (t.visits l).forM (removeAt p) t = (.ok (), t') ↔
      t.Removable p l ∧ ∀ m, t'.get? m = if l <+: m then none else t.get? m := by
  have hl := Tree.get?_of_find hfind
  constructor
  · intro h
    exact ⟨removable_of_forM ht hfind h, ((forM_removeAt_directory ht hfind rfl).2 h).get?⟩
  · rintro ⟨hr, hget⟩
    obtain ⟨s, hrun, hs⟩ := forM_removeAt_of_removable ht hl hr (List.nil_append _).symm (.refl t l)
    obtain rfl : s = t' := by
      refine Tree.ext_get? fun m => ?_
      rw [hget, hs.get?_eq fun names e he => ?_]
      obtain ⟨v, hv, htaken⟩ := Tree.exists_taken_of_get? hl he
      exact List.mem_filterMap.2 ⟨v, hv, htaken⟩
    exact hrun

/-- The preview of a removal and the removal itself count the same, all that is at and below the
directory, wherever they succeed. The preview leaves every entry, and the removal takes away what it
counts and nothing else. The removal asks for more than the preview, and where it fails it has still
taken away nothing from elsewhere. -/
theorem clean_eq_ok_iff (ht : t.Named) (hlook : t.look p = .ok (l, .directory)) :
    (∀ removal t', clean true p t = (.ok removal, t') ↔
      t.Enterable p l ∧ removal = t.tally l ∧ t' = t) ∧
    (∀ removal t', clean false p t = (.ok removal, t') ↔
      t.Removable p l ∧ removal = t.tally l ∧
        ∀ m, t'.get? m = if l <+: m then none else t.get? m) ∧
    (clean true p t).2 = t ∧ t.Clears l (clean false p t).2 := by
  have hfind : t.find p = .ok (l, .directory) := by
    obtain ⟨hadm, hlands⟩ := Tree.look_eq_ok_iff.1 hlook
    exact Tree.find_eq_ok_iff.2 ⟨hadm, hlands.follow_of_hold (by simp)⟩
  have hclean : ∀ preview, clean preview p t =
      ((t.visits l).forM (if preview then enterAt p else removeAt p) >>= fun _ =>
        pure (t.tally l)) t := by
    intro preview
    rw [clean_apply_of_walk (Tree.has_iff.2 ⟨l, _, hfind⟩) (Tree.walk_of_look hlook),
      Tree.ofVisits_visits (Tree.get?_of_find hfind)]
  have hok : ∀ preview removal t', clean preview p t = (.ok removal, t') ↔
      removal = t.tally l ∧
        (t.visits l).forM (if preview then enterAt p else removeAt p) t = (.ok (), t') := by
    intro preview removal t'
    rw [hclean, bind_eq_ok]
    simp only [pure_eq_ok]
    constructor
    · rintro ⟨_, s, hrun, rfl, rfl⟩
      exact ⟨rfl, hrun⟩
    · rintro ⟨rfl, hrun⟩
      exact ⟨(), t', hrun, rfl, rfl⟩
  refine ⟨fun removal t' => ?_, fun removal t' => ?_, ?_, ?_⟩
  · rw [hok, if_pos rfl, forM_enterAt_eq_ok_iff ht hfind]
    exact and_left_comm
  · rw [hok, if_neg (by simp), forM_removeAt_eq_ok_iff ht hfind]
    exact and_left_comm
  · rw [hclean]
    exact (Moves.bind (Moves.forM fun v _ => moves_enterAt p v) fun _ => Moves.pure _) t |>.symm
  · rw [hclean]
    refine after_bind (forM_removeAt_directory ht hfind rfl).1 fun _ _ _ h => h

/-- A directory with a link in it to another one. -/
private def linkedTree : Tree := .putAll ∅
  [(["keep"], .directory), (["keep", "b.php"], .file "b".toUTF8), (["core"], .directory),
    (["core", "a.php"], .file "a".toUTF8), (["core", "out"], .link (.ofString "../keep"))]

private theorem named_linkedTree : linkedTree.Named := Tree.plain_empty.named.putAll (by decide)

/-- What the link leads to is not counted, and stays. -/
theorem clean_eq_ok_iff_core :
    linkedTree.Named ∧ linkedTree.look (.ofString "/core") = .ok (["core"], .directory) ∧
      linkedTree.tally ["core"] = ⟨2, 1⟩ ∧
      clean true (.ofString "/core") linkedTree = (.ok ⟨2, 1⟩, linkedTree) ∧
      ∃ t', clean false (.ofString "/core") linkedTree = (.ok ⟨2, 1⟩, t') ∧
        t'.get? ["core"] = none ∧ t'.get? ["keep", "b.php"] = some (.file "b".toUTF8) := by
  have hlook : linkedTree.look (.ofString "/core") = .ok (["core"], .directory) := by decide +kernel
  obtain ⟨hpreview, hreal, -, -⟩ := clean_eq_ok_iff named_linkedTree hlook
  obtain ⟨removal, t', hrun⟩ := exists_of_isOk
    (x := clean false (.ofString "/core")) (s := linkedTree) (by decide +kernel)
  obtain ⟨hremovable, rfl, hget⟩ := (hreal _ _).1 hrun
  have hcount : linkedTree.tally ["core"] = ⟨2, 1⟩ := by
    have hvalue : (clean false (.ofString "/core") linkedTree).1.toOption = some ⟨2, 1⟩ := by
      decide +kernel
    rw [hrun] at hvalue
    exact Option.some.inj hvalue
  have henter : linkedTree.Enterable (.ofString "/core") ["core"] :=
    fun names he => hremovable.admissible names _ he
  have hseen := (hpreview _ _).2 ⟨henter, rfl, rfl⟩
  rw [hcount] at hseen hrun
  refine ⟨named_linkedTree, hlook, hcount, hseen, t', hrun, ?_, ?_⟩
  · rw [hget]
    decide
  · rw [hget]
    decide +kernel

/-- By a path that ends in a dot everything in a directory is removed, and then the removal fails,
although its preview does not. -/
theorem clean_dot_ne_preview :
    linkedTree.Named ∧ linkedTree.look (.ofString "/core/.") = .ok (["core"], .directory) ∧
      (clean true (.ofString "/core/.") linkedTree).1.toOption = some ⟨2, 1⟩ ∧
      (clean false (.ofString "/core/.") linkedTree).1.isOk = false ∧
      (clean false (.ofString "/core/.") linkedTree).2.get? ["core"] = some .directory ∧
      (clean false (.ofString "/core/.") linkedTree).2.get? ["core", "a.php"] = none :=
  ⟨named_linkedTree, by decide +kernel, by decide +kernel, by decide +kernel, by decide +kernel,
    by decide +kernel⟩

end Files

end Branding
