import Branding.Files.Clean
import Branding.Proofs.Files.Walk
import Branding.Proofs.Files.Write

/-!
# What a removal takes away

Each visit of a removal takes at most one entry away. What it takes away was at the same place when
the removal began, since a path never leads to more than it did while entries are only taken away.
So a removal stays at or below the directory that the path leads to, links in it or on the way
notwithstanding.

There is one removal that works elsewhere. A path to a link has the link removed first, and then
leads nowhere. So a removal that succeeds has found nothing behind the link.

The last visit to a directory is the departure from it, which succeeds only when it is empty. So
nothing is left there when the whole has succeeded, without a look at what the visits before have
removed.

## Main definitions

* `Tree.Clears` — entries at or below a location have been taken away
* `Tree.Cleaned` — what is known when a removal has succeeded

## Main results

* `Files.clean_clears` — a removal, whatever comes of it
* `Files.clean_get?` — after a removal that succeeds nothing is left
-/

namespace Branding

namespace Tree

variable {l m : Location} {t t' t'' : Tree} {p : Path}

/-- Entries at or below a location have been taken away, and nothing else. -/
def Clears (l : Location) (t t' : Tree) : Prop :=
  ∀ m, t'.get? m = t.get? m ∨ l <+: m ∧ t'.get? m = none

namespace Clears

theorem refl (l : Location) (t : Tree) : Clears l t t := fun _ => Or.inl rfl

theorem trans (h : Clears l t t') (h' : Clears l t' t'') : Clears l t t'' := by
  intro m
  rcases h' m with h' | h'
  · rw [h']
    exact h m
  · exact Or.inr h'

theorem elsewhere (h : Clears l t t') (hm : ¬l <+: m) : t'.get? m = t.get? m :=
  (h m).resolve_right fun hl => hm hl.1

theorem keepsBelow (h : Clears m t t') (hapart : Location.Apart l m) : t.KeepsBelow l t' := by
  rintro n ⟨names, rfl⟩
  exact h.elsewhere (hapart.symm.not_prefix_append names)

theorem within (h : Clears l t t') : t'.Within t := by
  intro m e hm
  rcases h m with hsame | ⟨-, hnone⟩
  · rw [← hsame, hm]
  · rw [hnone] at hm
    cases hm

end Clears

theorem Sets.clears {names : List String} (h : t.Sets (l ++ names) none t') : Clears l t t' := by
  intro m
  by_cases hm : m = l ++ names
  · subst hm
    exact Or.inr ⟨List.prefix_append l names, h.here⟩
  · exact Or.inl (h.elsewhere hm)

theorem Sets.clears_self (h : t.Sets l none t') : Clears l t t' := by
  rw [← List.append_nil l] at h
  exact h.clears

/-- What a removal that has succeeded has done, and how. Either a directory was emptied, and the
path led there to the last. Or a file or a link was taken away, and no entry was behind the link. -/
inductive Cleaned (p : Path) (t t' : Tree) (l : Location) : Prop
  | directory (c : Tree) (hclears : t.Clears l c) (hfind : c.find p = .ok (l, .directory))
    (hempty : ∀ more, more ≠ [] → c.get? (l ++ more) = none) (hsets : c.Sets l none t')
  | entry (e : Entry) (he : e ≠ .directory) (hlook : t.look p = .ok (l, e))
    (hempty : ∀ d, t.find p = .ok (d, .directory) → ∀ more, more ≠ [] → t.get? (d ++ more) = none)
    (hsets : t.Sets l none t')

namespace Cleaned

theorem clears (h : Cleaned p t t' l) : t.Clears l t' := by
  cases h with
  | directory c hclears _ _ hsets => exact hclears.trans hsets.clears_self
  | entry _ _ _ _ hsets => exact hsets.clears_self

/-- Nothing is left where something was removed. -/
theorem get? (h : Cleaned p t t' l) (m : Location) :
    t'.get? m = if l <+: m then none else t.get? m := by
  have hnone : t'.get? l = none := by
    cases h with
    | directory _ _ _ _ hsets => exact hsets.here
    | entry _ _ _ _ hsets => exact hsets.here
  by_cases hm : l <+: m
  · rw [if_pos hm]
    obtain ⟨more, rfl⟩ := hm
    by_cases hmore : more = []
    · rw [hmore, List.append_nil, hnone]
    · exact get?_append_eq_none (by simp [hnone]) hmore
  · rw [if_neg hm, h.clears.elsewhere hm]

end Cleaned

/-! ### Where a path leads while entries are taken away -/

/-- A path down from a directory by names leads to no other place than it did. -/
theorem Within.location_eq {names : List String} {e e' : Entry} (h : t'.Within t)
    (hfind : t.find p = .ok (l, .directory)) (hnames : ∀ name ∈ names, IsName name)
    (hthere : t.get? (l ++ names) = some e)
    (hland : t'.land .name (p.descend names) = .ok (.occupied m e'))
    (hstart : names ≠ [] ∨ e' = .directory) : m = l ++ names := by
  have hland := h.land_occupied hland
  by_cases hne : names = []
  · subst hne
    obtain rfl := hstart.resolve_left (fun hnot => hnot rfl)
    have hfound : t.find p = .ok (m, .directory) := find_of_land_directory hland
    rw [hfind] at hfound
    cases hfound
    rw [List.append_nil]
  · obtain ⟨k, hiff⟩ := exists_land_descend_iff hfind
    refine (((hiff hne hnames).1 hland).2).location_eq hnames fun more hle hmore hlast target => ?_
    have hproper : more ≠ names := hlast.resolve_right (by simp [LastName.holds])
    have hway := get?_eq_directory_of_prefix hthere ((List.prefix_append_right_inj l).2 hle)
      fun heq => hproper (List.append_cancel_left heq)
    simp [hway]

/-- Without the file or the link that it ends in, a path leads to a free name at most, and nowhere
beyond. -/
theorem exists_free_of_sets {e : Entry} (he : e ≠ .directory) (hlook : t.look p = .ok (l, e))
    (hsets : t.Sets l none t') : ∃ front s, p.segments = front ++ [s] ∧ IsName s ∧
      ∀ {mode : LastName} {rest : List String} {x : Landing},
        t'.Lands mode maxLinks [] (front ++ s :: rest) x →
          x = .free l ∧ mode.endsBefore rest = true := by
  obtain ⟨front, s, k, d, hsegments, hs, hleads, rfl, -⟩ :=
    (look_eq_ok_iff.1 hlook).2.exists_of_hold he
  refine ⟨front, s, hsegments, hs, fun {mode rest x} hlands => ?_⟩
  obtain ⟨k', d', hleads', hrest⟩ := hlands.leads (Or.inl ⟨s, List.mem_cons_self, hs.1⟩)
  obtain rfl := (hleads'.of_keepsWays hsets.clears_self.within.keepsWays).directory_unique hleads
  have hnone : t'.get? (d' ++ [s]) = none := hsets.here
  cases hrest with
  | blank hblank => exact absurd hblank (not_or.2 ⟨hs.1, hs.2.1⟩)
  | up => exact absurd rfl hs.2.2
  | into _ _ _ hget | through _ _ _ hget | file _ _ _ hget | held _ _ _ hget =>
    rw [hnone] at hget
    cases hget
  | free _ _ _ _ hends => exact ⟨rfl, hends⟩

theorem not_land_of_sets {e : Entry} (he : e ≠ .directory) (hlook : t.look p = .ok (l, e))
    (hsets : t.Sets l none t') {names : List String} (hnames : ∀ name ∈ names, IsName name)
    (hne : names ≠ []) {mode : LastName} {x : Landing} :
    t'.land mode (p.descend names) ≠ .ok x := by
  intro hland
  obtain ⟨front, s, hsegments, hs, hfree⟩ := exists_free_of_sets he hlook hsets
  have hfront : (p.descend names).segments = front ++ s :: names := by
    obtain ⟨first, hfirst, hdescend⟩ := Path.exists_descend_eq p
    rw [hdescend names hne hnames]
    rcases hfirst with hfirst | hfirst
    · rw [← hfirst, hsegments]
      simp
    · rw [hsegments] at hfirst
      exact absurd (List.append_inj' hfirst rfl).2 (by simp [hs.1])
  obtain ⟨-, hlands⟩ := land_eq_ok_iff.1 hland
  rw [hfront] at hlands
  obtain ⟨name, rest, rfl⟩ := List.exists_cons_of_ne_nil hne
  exact (hnames name List.mem_cons_self).1
    (LastName.eq_empty_of_endsBefore (hfree hlands).2 name List.mem_cons_self)

/-- What is visited behind a link lies strictly below the directory there. -/
theorem Named.visits_below (ht : t.Named) (d : Location) :
    ∀ v ∈ Visit.ofEntries [] (t.below d), v.names ≠ [] ∧ ∀ name ∈ v.names, IsName name := by
  intro v hv
  rcases Visit.leave_or_mem_of_mem_ofEntries hv with ⟨names, hnames, -⟩ | hv
  · cases hnames
  · obtain ⟨⟨names, e⟩, hmem, hnames⟩ := List.mem_map.1 hv
    obtain rfl : names = v.names := hnames
    obtain ⟨hne, he⟩ := mem_below.1 hmem
    exact ⟨hne, fun name hname => ht.isName_of_mem he name (List.mem_append_right d hname)⟩

end Tree

namespace Files

variable {t t' s : Tree} {p : Path} {l : Location}

/-! ### Single visits -/

theorem moves_refuse (p inside : Path) (r : Refusal) : Moves Eq (removeAt.refuse p inside r) :=
  Moves.adapt (Moves.adapt (Moves.throw _) _) _

theorem refuse_ne_ok {inside : Path} {r : Refusal} {u : Unit} :
    removeAt.refuse p inside r t ≠ (.ok u, t') :=
  fun h => throw_ne_ok (adapt_eq_ok.1 (adapt_eq_ok.1 h))

theorem removeAt_enter (p : Path) (names : List String) (t : Tree) :
    removeAt p (.enter names) t = (.ok (), t) ∨
      ∃ fault, removeAt p (.enter names) t = (.error fault, t) := by
  rw [removeAt, get_bind_apply]
  cases t.closed? (p.descend names) with
  | none => exact Or.inl rfl
  | some r => exact Or.inr ⟨_, rfl⟩

/-- In a preview no visit changes anything. -/
theorem moves_enterAt (p : Path) (v : Visit) : Moves Eq (enterAt p v) := by
  cases v with
  | leave names | file names | link names => exact Moves.pure ()
  | enter names =>
    intro s
    show s = (removeAt p (.enter names) s).2
    rcases removeAt_enter p names s with h | ⟨fault, h⟩
    · rw [h]
    · rw [h]

/-- A visit takes away at most one entry. -/
theorem moves_removeAt_of {R : Tree → Tree → Prop} [Std.Refl R] {v : Visit}
    (hleave : ∀ names, v = .leave names → Moves R (Edit.removeDirectory (p.descend names)))
    (hentry : ∀ names, v = .file names ∨ v = .link names →
      Moves R (Edit.unlink (p.descend names))) : Moves R (removeAt p v) := by
  cases v with
  | enter names =>
    intro s
    rcases removeAt_enter p names s with h | ⟨fault, h⟩
    · rw [h]
      exact Std.Refl.refl s
    · rw [h]
      exact Std.Refl.refl s
  | leave names => exact Moves.adapt (Moves.adapt (hleave names rfl) _) _
  | file names => exact Moves.adapt (Moves.adapt (hentry names (Or.inl rfl)) _) _
  | link names => exact Moves.adapt (Moves.adapt (hentry names (Or.inr rfl)) _) _

/-- A visit at or below the directory that the path leads to takes away an entry there. -/
theorem clears_removeAt (hfind : t.find p = .ok (l, .directory)) {v : Visit} {e : Entry}
    (hthere : t.get? (l ++ v.names) = some e) (hnames : ∀ name ∈ v.names, IsName name)
    (hstart : v.names = [] → v = .enter [] ∨ v = .leave []) :
    Moves (Keeps (t.Clears l)) (removeAt p v) := by
  refine moves_removeAt_of (fun names hv => ?_) fun names hv => ?_
  · refine Edit.moves_removeDirectory_of fun s m hland hsets hclears => ?_
    rw [hv] at hthere hnames
    obtain rfl := hclears.within.location_eq hfind hnames hthere hland (Or.inr rfl)
    exact hclears.trans hsets.clears
  · refine Edit.moves_unlink_of fun s m e' hland he' hsets hclears => ?_
    have hvnames : v.names = names := by rcases hv with rfl | rfl <;> rfl
    rw [hvnames] at hthere hnames hstart
    have hne : names ≠ [] := by
      rintro rfl
      rcases hv with rfl | rfl
      · rcases hstart rfl with heq | heq <;> cases heq
      · rcases hstart rfl with heq | heq <;> cases heq
    obtain rfl := hclears.within.location_eq hfind hnames hthere hland (Or.inl hne)
    exact hclears.trans hsets.clears

/-- Where a path leads nowhere a visit fails, and takes nothing away. -/
theorem removeAt_eq_error {v : Visit}
    (hland : ∀ mode x, s.land mode (p.descend v.names) ≠ .ok x) :
    ∃ fault, removeAt p v s = (.error fault, s) := by
  have hedit : ∀ {activity : Activity} {change : Edit Unit} {r : Refusal},
      change s = (.error r, s) → ∃ fault, during activity (edit change) s = (.error fault, s) := by
    intro activity change r h
    rw [during_run, edit_run, h]
    exact ⟨_, rfl⟩
  cases v with
  | enter names =>
    rw [removeAt, get_bind_apply]
    cases hclosed : s.closed? (p.descend names) with
    | some r => exact ⟨_, rfl⟩
    | none =>
      obtain ⟨m, hfind⟩ := Tree.closed?_eq_none_iff.1 hclosed
      rw [Tree.find_eq_ok_iff, ← Tree.land_eq_ok_iff] at hfind
      exact absurd hfind (hland _ _)
  | leave names =>
    rcases Edit.removeDirectory_cases (p.descend names) s with ⟨m, hm, -⟩ | ⟨r, hrun⟩
    · exact absurd hm (hland _ _)
    · exact hedit hrun
  | file names | link names =>
    rcases Edit.unlink_cases (p.descend names) s with ⟨m, e, hm, -⟩ | ⟨r, hrun⟩
    · exact absurd hm (hland _ _)
    · exact hedit hrun

/-! ### A whole removal -/

/-- The visits to a directory and what is in it take away what is there. -/
theorem clears_removeAt_of_mem (ht : t.Named) (hfind : t.find p = .ok (l, .directory)) {v : Visit}
    (hv : v ∈ .enter [] :: Visit.ofEntries [[]] (t.below l)) :
    Moves (Keeps (t.Clears l)) (removeAt p v) := by
  have hdir := Tree.get?_of_find hfind
  have hvisit : v = .enter [] ∨ v = .leave [] ∨ v.names ∈ (t.below l).map Prod.fst := by
    rcases List.mem_cons.1 hv with rfl | hv
    · exact Or.inl rfl
    rcases Visit.leave_or_mem_of_mem_ofEntries hv with ⟨names, hnames, rfl⟩ | hv
    · rw [List.mem_singleton.1 hnames]
      exact Or.inr (Or.inl rfl)
    · exact Or.inr (Or.inr hv)
  rcases hvisit with rfl | rfl | hv
  · exact clears_removeAt (e := .directory) hfind (by rwa [Visit.names, List.append_nil])
      (by simp [Visit.names]) fun _ => Or.inl rfl
  · exact clears_removeAt (e := .directory) hfind (by rwa [Visit.names, List.append_nil])
      (by simp [Visit.names]) fun _ => Or.inr rfl
  · obtain ⟨⟨names, e⟩, hmem, hnames⟩ := List.mem_map.1 hv
    obtain rfl : names = v.names := hnames
    obtain ⟨hne, he⟩ := Tree.mem_below.1 hmem
    exact clears_removeAt hfind he
      (fun name hname => ht.isName_of_mem he name (List.mem_append_right l hname))
      fun hnil => absurd hnil hne

/-- The last step takes away the directory itself. -/
theorem exists_last_of_forM (ht : t.Named) (hfind : t.find p = .ok (l, .directory)) {u : Unit}
    (h : (.enter [] :: Visit.ofEntries [[]] (t.below l)).forM (removeAt p) t = (.ok u, t')) :
    ∃ c, t.Clears l c ∧ Edit.removeDirectory p c = (.ok (), t') := by
  have hmoves : ∀ v ∈ .enter [] :: Visit.ofEntries [[]] (t.below l),
      Moves (Keeps (t.Clears l)) (removeAt p v) := fun v => clears_removeAt_of_mem ht hfind
  obtain ⟨front, hfront⟩ := Visit.exists_ofEntries_eq [] (t.below l)
  rw [List.nil_append] at hfront
  rw [hfront, ← List.cons_append] at h hmoves
  obtain ⟨c, hbefore, hlast⟩ := forM_append_eq_ok.1 h
  have hclears : t.Clears l c :=
    (Moves.forM fun v hv => hmoves v (List.mem_append_left _ hv)).of_eq_ok hbefore (.refl l t)
  obtain ⟨t₂, hremove, hend⟩ := forM_cons_eq_ok.1 hlast
  obtain ⟨-, rfl⟩ := pure_eq_ok.1 hend
  exact ⟨c, hclears, adapt_eq_ok.1 (adapt_eq_ok.1 hremove)⟩

/-- The visits to a directory and what is in it. -/
theorem forM_removeAt_directory (ht : t.Named) (hfind : t.find p = .ok (l, .directory))
    {visits : List Visit} (hvisits : visits = .enter [] :: Visit.ofEntries [[]] (t.below l)) :
    t.Clears l (visits.forM (removeAt p) t).2 ∧
      ∀ {u : Unit} {t' : Tree}, visits.forM (removeAt p) t = (.ok u, t') → t.Cleaned p t' l := by
  subst hvisits
  refine ⟨Moves.forM (fun v => clears_removeAt_of_mem ht hfind) t (.refl l t),
    fun {u t'} hrun => ?_⟩
  obtain ⟨c, hclears, hremove⟩ := exists_last_of_forM ht hfind hrun
  obtain ⟨m, hland, -, -, hne, hnames, rfl⟩ := Edit.removeDirectory_eq_ok_iff.1 hremove
  obtain rfl : m = l := by
    have heq : m = l ++ [] := hclears.within.location_eq hfind (List.forall_mem_nil _)
      (by rw [List.append_nil]; exact Tree.get?_of_find hfind) hland (Or.inr rfl)
    rwa [List.append_nil] at heq
  exact .directory c hclears (Tree.find_of_land_directory hland)
    (fun more => Tree.get?_append_of_names_eq_nil hnames) (.drop hnames hne)

/-- The visits by a path that ends in a file or a link. A link is taken away before anything behind
it is visited, and nothing can be visited then. -/
theorem forM_removeAt_entry {e : Entry} (he : e ≠ .directory) (hlook : t.look p = .ok (l, e))
    {v : Visit} (hv : v = .file [] ∨ v = .link []) {rest : List Visit}
    (hrest : ∀ v ∈ rest, v.names ≠ [] ∧ ∀ name ∈ v.names, IsName name) :
    t.Clears l ((v :: rest).forM (removeAt p) t).2 ∧
      ∀ {u : Unit} {t' : Tree}, (v :: rest).forM (removeAt p) t = (.ok u, t') →
        t.Sets l none t' ∧ rest = [] := by
  have hunlink : ∀ {result : Except Refusal Unit} {t' : Tree}, Edit.unlink p t = (result, t') →
      ∃ result' : Except Fault Unit, removeAt p v t = (result', t') ∧
        (∀ u, result' = .ok u → result = .ok ()) := by
    intro result t' hrun
    have happly : removeAt p v t = during (.removingFile p) (edit (Edit.unlink p)) t := by
      rcases hv with rfl | rfl <;> rfl
    rw [happly, during_run, edit_run, hrun]
    cases result with
    | ok u => exact ⟨_, rfl, fun _ _ => rfl⟩
    | error r => exact ⟨_, rfl, nofun⟩
  rw [forM_cons_apply]
  rcases Edit.unlink_cases p t with ⟨m, e', hland, -, hrun, hsets⟩ | ⟨r, hrun⟩
  · obtain ⟨hadm, hlands⟩ := Tree.land_eq_ok_iff.1 hland
    cases hlands.unique ((Tree.look_eq_ok_iff.1 hlook).2.name_of_hold he t.get?_nil)
    obtain ⟨result, hremove, -⟩ := hunlink hrun
    rw [hremove]
    cases result with
    | error fault => exact ⟨hsets.clears_self, nofun⟩
    | ok u =>
      have hfails : ∀ v ∈ rest, ∃ fault, removeAt p v (t.drop l) = (.error fault, t.drop l) :=
        fun v hv => removeAt_eq_error fun mode x =>
          Tree.not_land_of_sets he hlook hsets (hrest v hv).2 (hrest v hv).1
      rcases forM_eq_error hfails with rfl | ⟨fault, hfail⟩
      · refine ⟨hsets.clears_self, fun {u t'} hend => ?_⟩
        obtain ⟨-, rfl⟩ := pure_eq_ok.1 hend
        exact ⟨hsets, rfl⟩
      · simp only [hfail]
        exact ⟨hsets.clears_self, nofun⟩
  · obtain ⟨result, hremove, hok⟩ := hunlink hrun
    rw [hremove]
    cases result with
    | error fault => exact ⟨.refl l t, nofun⟩
    | ok u => cases hok u rfl

/-- A removal, or the preview of one, works through the visits of a walk. -/
theorem clean_apply_of_walk {preview : Bool} (hhas : t.has p = true) {visits : List Visit}
    (hwalk : t.walk p = .ok visits) :
    clean preview p t = (visits.forM (if preview then enterAt p else removeAt p) >>= fun _ =>
      pure (Removal.ofVisits visits)) t := by
  rw [clean, get_bind_apply, if_pos hhas, hwalk]

/-- A removal, whatever comes of it, stays at or below the place that the path leads to, or takes
away the link that it ends in. -/
theorem clean_clears (ht : t.Named) {e : Entry} (hfind : t.find p = .ok (l, e)) :
    ∃ m, (m = l ∨ ∃ target, t.look p = .ok (m, .link target)) ∧ t.Clears m (clean false p t).2 ∧
      ∀ {removal : Removal} {t' : Tree}, clean false p t = (.ok removal, t') →
        t.Cleaned p t' m := by
  have hhas : t.has p = true := Tree.has_iff.2 ⟨l, e, hfind⟩
  have hwork : ∀ {visits : List Visit} {m : Location}, t.walk p = .ok visits →
      (t.Clears m (visits.forM (removeAt p) t).2 ∧
        ∀ {u : Unit} {t' : Tree}, visits.forM (removeAt p) t = (.ok u, t') → t.Cleaned p t' m) →
      t.Clears m (clean false p t).2 ∧
        ∀ {removal : Removal} {t' : Tree}, clean false p t = (.ok removal, t') →
          t.Cleaned p t' m := by
    intro visits m hwalk hvisits
    have hclean : clean false p t =
        ((visits.forM (removeAt p)) >>= fun _ => pure (Removal.ofVisits visits)) t :=
      clean_apply_of_walk hhas hwalk
    rw [hclean]
    refine ⟨?_, fun {removal t'} hrun => ?_⟩
    · rw [bind_apply]
      cases hrun : visits.forM (removeAt p) t with
      | mk result s =>
        rw [hrun] at hvisits
        cases result with
        | ok u => exact hvisits.1
        | error fault => exact hvisits.1
    · obtain ⟨u, s, hvisit, hend⟩ := bind_eq_ok.1 hrun
      obtain ⟨-, rfl⟩ := pure_eq_ok.1 hend
      exact hvisits.2 hvisit
  cases hwalk : t.walk p with
  | error r =>
    have hclean : clean false p t =
        (removeAt.refuse p p r >>= fun _ => pure Removal.none) t := by
      rw [clean, get_bind_apply, if_pos hhas, hwalk]
    refine ⟨l, Or.inl rfl, ?_, fun {removal t'} hrun => ?_⟩
    · rw [hclean]
      exact .refl l t
    · rw [hclean] at hrun
      obtain ⟨u, s, hrefuse, -⟩ := bind_eq_ok.1 hrun
      exact absurd hrefuse refuse_ne_ok
  | ok visits =>
    rcases Tree.walk_eq_ok hfind hwalk with ⟨rfl, hvisits⟩ | ⟨m, e', he', hlook, hm, hrest⟩
    · exact ⟨l, Or.inl rfl, hwork hwalk (forM_removeAt_directory ht hfind hvisits)⟩
    refine ⟨m, ?_, hwork hwalk ?_⟩
    · refine hm.imp_right ?_
      rintro ⟨target, rfl⟩
      exact ⟨target, hlook⟩
    rcases hrest with ⟨he, hvisits⟩ | ⟨rfl, rfl⟩
    · obtain ⟨v, hv, rfl⟩ : ∃ v, (v = .file [] ∨ v = .link []) ∧ visits = [v] := by
        rcases hvisits with rfl | rfl
        · exact ⟨_, Or.inl rfl, rfl⟩
        · exact ⟨_, Or.inr rfl, rfl⟩
      obtain ⟨hclears, hsets⟩ := forM_removeAt_entry he' hlook hv (List.forall_mem_nil _)
      refine ⟨hclears, fun hrun => .entry e' he' hlook (fun d hd => ?_) (hsets hrun).1⟩
      rw [hfind] at hd
      cases hd
      exact absurd rfl he
    · obtain ⟨hclears, hsets⟩ := forM_removeAt_entry he' hlook (Or.inr rfl) (ht.visits_below l)
      rw [forM_cons_apply]
      rcases removeAt_enter p [] t with henter | ⟨fault, henter⟩
      · rw [henter]
        refine ⟨hclears, fun hrun => .entry e' he' hlook (fun d hd more hmore => ?_) (hsets hrun).1⟩
        rw [hfind] at hd
        cases hd
        rw [Option.eq_none_iff_forall_ne_some]
        intro entry hentry
        have hmem := Tree.mem_below.2 ⟨hmore, hentry⟩
        rw [Visit.eq_nil_of_ofEntries (hsets hrun).2] at hmem
        cases hmem
      · rw [henter]
        exact ⟨.refl m t, nofun⟩

/-- In a tree without links a removal stays at or below the location of the path. -/
theorem clean_clears_lexical (ht : t.Plain) (hhas : t.has p = true) :
    t.Clears p.lexical (clean false p t).2 ∧ ∀ {removal : Removal} {t' : Tree},
      clean false p t = (.ok removal, t') → t.Cleaned p t' p.lexical := by
  obtain ⟨l, e, hfind⟩ := Tree.has_iff.1 hhas
  obtain ⟨m, hm, hcleared⟩ := clean_clears ht.named hfind
  obtain rfl : m = p.lexical := by
    rcases hm with rfl | ⟨target, hlook⟩
    · exact (ht.find_eq_ok hfind).1
    · exact absurd (ht.look_eq_ok hlook).2 (ht.no_link _ target)
  exact hcleared

/-- After a removal in a tree without links nothing is left at the location of the path or below it,
and everything else is as it was. -/
theorem clean_get? (ht : t.Plain) (hhas : t.has p = true) {removal : Removal}
    (h : clean false p t = (.ok removal, t')) :
    t'.Plain ∧ ∀ m, t'.get? m = if p.lexical <+: m then none else t.get? m := by
  have hcleaned := (clean_clears_lexical ht hhas).2 h
  exact ⟨hcleaned.clears.within.plain ht, hcleaned.get?⟩

end Files

end Branding
