import Branding.Proofs.Files.Clean

/-!
# A directory made again

A directory that was removed is made again by the same path, and lies where what was removed has
lain. For a directory this is plain, since nothing on the way to it was taken away. For a link it is
not: the path has led past the link, perhaps more than once, and with the link out of the way it may
lead somewhere else. But what the link led to was empty when the removal succeeded. So a path that
takes nothing back cannot have gone on from there, and the directories around it are still there.

## Main results

* `Tree.Cleaned.remade` — the only directory to be made is the one that was removed
* `Tree.Cleaned.vacant` — a directory is made in place of what was removed, and nothing else is
-/

namespace Branding

namespace Tree

variable {t s : Tree} {p q : Path} {l m n d : Location} {k k' : Nat} {e e' : Entry}
  {segments : List String}

/-- A way that takes nothing back does not leave a directory in which nothing is. -/
theorem Leads.eq_of_empty (h : t.Leads k l segments k' d)
    (hempty : ∀ more, more ≠ [] → t.get? (l ++ more) = none) (hup : ".." ∉ segments) : d = l := by
  induction h with
  | arrived => rfl
  | blank _ _ ih => exact ih hempty fun hmem => hup (List.mem_cons_of_mem _ hmem)
  | up => exact absurd List.mem_cons_self hup
  | into _ _ hget | through _ _ hget =>
    rw [hempty _ (List.cons_ne_nil _ _)] at hget
    cases hget

/-- The way behind a link that a path ends in is the way behind the path. -/
theorem Lands.through_of_link {front : List String} {name : String} {target : Path}
    (h : t.Lands .follow k l (front ++ [name]) (.occupied n e)) (hname : IsName name)
    (hleads : t.Leads k l front k' d) (hlink : t.get? (d ++ [name]) = some (.link target)) :
    ∃ k₁, t.Lands .follow k₁ (if target.rooted then [] else d) target.segments
      (.occupied n e) := by
  obtain ⟨k₁, d₁, hfirst, hlast⟩ := h.leads (Or.inl ⟨name, List.mem_singleton_self name, hname.1⟩)
  obtain ⟨rfl, rfl⟩ := hleads.unique hfirst
  cases hlast with
  | blank hblank => exact absurd hblank (not_or.2 ⟨hname.1, hname.2.1⟩)
  | up => exact absurd rfl hname.2.2
  | into _ _ _ hget | file _ _ _ hget =>
    rw [hlink] at hget
    cases hget
  | held _ _ _ _ hheld => cases hheld.2
  | through _ _ _ hget _ hrest =>
    rw [hlink] at hget
    cases hget
    rw [List.append_nil] at hrest
    exact ⟨_, hrest⟩

/-- The directories around a path that has ended in a file or a link need not be made. -/
theorem not_free_of_removed (hrooted : p.rooted = true) (he : e ≠ .directory)
    (hlook : t.look p = .ok (m, e)) (hfind : t.find p = .ok (l, e'))
    (hempty : e' = .directory → ∀ more, more ≠ [] → t.get? (l ++ more) = none)
    (hup : ∀ target, e = .link target → ".." ∉ p.segments) (hsets : t.Sets m none s)
    (hq : q ∈ p.enclosing) : s.land .name q ≠ .ok (.free n) := by
  intro hland
  have hwithin := hsets.clears_self.within
  have hthere : t.get? m = some e := get?_of_look hlook
  obtain ⟨front, name, k, d, hsegments, hname, hleads, rfl, -⟩ :=
    (look_eq_ok_iff.1 hlook).2.exists_of_hold he
  obtain ⟨rooted, all⟩ := p
  obtain rfl : rooted = true := hrooted
  obtain rfl : all = front ++ [name] := hsegments
  rw [Path.enclosing_eq_outward (not_or.2 ⟨hname.1, hname.2.1⟩) (List.forall_mem_nil _)] at hq
  rcases Path.eq_or_prefix_of_mem_outward hq with rfl | ⟨-, rest, hrest⟩
  · exact not_free_start hland
  rw [List.reverse_reverse] at hrest
  subst hrest
  obtain ⟨k₁, around, hfirst, hlast⟩ := hleads.cut
  -- what is free now and was not then is what was removed
  by_cases hn : n = d ++ [name]
  swap
  · have hnone : t.get? n = none := by
      rw [← hsets.elsewhere hn]
      exact (accepts_of_land_free hland).1
    exact not_free_of_leads hfirst (hwithin.land_free hland hnone)
  subst hn
  obtain ⟨-, hfree⟩ := land_eq_ok_iff.1 hland
  rcases Path.eq_blanks_or_exists_last q.segments with
    hblank | ⟨before, b, blanks, hqs, hb, hblanks⟩
  · cases hfree.of_blank hblank
  rw [hqs] at hfree hfirst
  obtain ⟨hbname, k₂, d₂, hbefore, heq, -⟩ := hfree.of_free hb hblanks
  obtain ⟨rfl, hsame⟩ := List.append_inj' heq rfl
  obtain rfl : name = b := List.head_eq_of_cons_eq hsame
  obtain ⟨k₃, d₃, hbefore', hbehind⟩ := hfirst.cut
  obtain ⟨rfl, rfl⟩ := (hbefore.of_keepsWays hwithin.keepsWays).unique hbefore'
  -- so the path around it has gone past the link, to where the whole path has led
  cases hbehind with
  | blank hblank => exact hb hblank
  | up => exact hname.2.2 rfl
  | into _ _ hget =>
    rw [hthere] at hget
    exact he (Option.some.inj hget)
  | @through _ _ _ _ _ _ target _ _ hget hthrough =>
    obtain rfl := Option.some.inj (hthere.symm.trans hget)
    obtain ⟨k₄, hwhole⟩ :=
      (find_eq_ok_iff.1 hfind).2.through_of_link hname hleads hthere
    cases ((leads_append_blank_iff hblanks).1 hthrough).lands_directory.unique_of hwhole
    have hnothing := hempty rfl
    have hnotUp : ".." ∉ rest := by
      intro hmem
      exact hup target rfl (List.mem_append_left _ (List.mem_append_right _ hmem))
    obtain rfl := hlast.eq_of_empty hnothing hnotUp
    rw [hnothing [name] (List.cons_ne_nil _ _)] at hthere
    cases hthere

/-- After a removal the only directory to be made, by the path or on the way to it, is the one that
was removed, and the path leads there then. -/
theorem Cleaned.remade (h : t.Cleaned p s m) (hrooted : p.rooted = true)
    (hfind : t.find p = .ok (l, e'))
    (hup : ∀ target, t.look p = .ok (m, .link target) → ".." ∉ p.segments)
    (hq : q ∈ p :: p.enclosing) (hland : s.land .name q = .ok (.free n)) :
    n = m ∧ ∀ u, s.Sets m (some .directory) u → u.PlainAt p m := by
  cases h with
  | directory c hclears hthere hempty hsets =>
    have hr : c.PlainAt p m := .of_empty hthere hempty
    refine ⟨?_, fun u hu => ?_⟩
    · -- everything on the way is there, but for what was removed
      by_contra hn
      have hnone : c.get? n = none := by
        rw [← hsets.elsewhere hn]
        exact (accepts_of_land_free hland).1
      have hfree := hsets.clears_self.within.land_free hland hnone
      rcases List.mem_cons.1 hq with rfl | hq
      · exact not_free_of_lands (find_eq_ok_iff.1 hthere).2 hfree
      · exact hr.not_free_of_prefix (Path.eq_or_prefix_of_mem_enclosing hrooted hq) hfree
    · obtain rfl : c = u := by
        refine ext_get? fun k => ?_
        by_cases hk : k = m
        · rw [hk, hu.here, hr.get?]
        · rw [hu.elsewhere hk, hsets.elsewhere hk]
      exact hr
  | entry e he hlook hempty hsets =>
    have hq : q = p := by
      refine (List.mem_cons.1 hq).resolve_right fun hq => ?_
      refine not_free_of_removed hrooted he hlook hfind ?_ (fun target htarget => ?_) hsets hq hland
      · rintro rfl
        exact hempty l hfind
      · exact hup target (htarget ▸ hlook)
    subst hq
    obtain ⟨hadm, hfree⟩ := land_eq_ok_iff.1 hland
    obtain ⟨front, name, hsegments, -, honly⟩ := exists_free_of_sets he hlook hsets
    rw [hsegments] at hfree
    cases (honly hfree).1
    refine ⟨rfl, fun u hu => ?_⟩
    have hways : s.KeepsWays u := hu.keepsWays (by simp [hsets.here])
    rw [← hsegments] at hfree
    refine .of_empty (find_directory_iff.2 ⟨hadm, hfree.leads_of_free hways hu.here⟩)
      fun more hmore => ?_
    rw [hu.elsewhere fun heq => hmore (List.append_right_eq_self.1 heq)]
    exact get?_append_eq_none (by simp [hsets.here]) hmore

/-- After a removal the path leads to no directory. -/
theorem Cleaned.not_find (h : t.Cleaned p s m) : s.find p ≠ .ok (n, .directory) := by
  intro hfind
  cases h with
  | directory c hclears hthere hempty hsets =>
    have hfound := hsets.clears_self.within.find hfind
    rw [hthere] at hfound
    cases hfound
    have hdir := get?_of_find hfind
    rw [hsets.here] at hdir
    cases hdir
  | entry e he hlook hempty hsets =>
    obtain ⟨front, name, hsegments, -, honly⟩ := exists_free_of_sets he hlook hsets
    have hlands := (find_eq_ok_iff.1 hfind).2
    rw [hsegments] at hlands
    cases (honly hlands).1

/-- What was removed leaves a place for a directory. -/
theorem Cleaned.vacant (h : t.Cleaned p s m) (hrooted : p.rooted = true)
    (hfind : t.find p = .ok (l, e'))
    (hup : ∀ target, t.look p = .ok (m, .link target) → ".." ∉ p.segments) : s.Vacant p m := by
  have hnone : s.get? m = none := by rw [h.get?, if_pos (List.prefix_refl m)]
  -- either nothing has been made, or all there is to make
  have hmoves : Moves (Keeps fun u => u = s ∨ s.Sets m (some .directory) u ∧ u.PlainAt p m)
      (Files.ensureDirectory p) := by
    refine Files.moves_ensureDirectory_of fun q hq => Edit.moves_makeDirectory_of ?_
    rintro u n hland hsets (rfl | ⟨-, hr⟩)
    · obtain ⟨rfl, hmade⟩ := h.remade hrooted hfind hup hq hland
      exact Or.inr ⟨hsets, hmade _ hsets⟩
    · rcases List.mem_cons.1 hq with rfl | hq
      · exact absurd hland (not_free_of_lands (find_eq_ok_iff.1 hr.found).2)
      · exact absurd hland (hr.not_free_of_prefix (Path.eq_or_prefix_of_mem_enclosing hrooted hq))
  have hend := hmoves s (Or.inl rfl)
  refine ⟨?_, fun {u t'} hrun => ?_⟩
  · rcases hend with heq | ⟨hsets, -⟩
    · rw [heq]
      exact .refl _ s
    · exact .of_sets (List.prefix_refl m) hnone hsets
  · rw [hrun] at hend
    rcases hend with rfl | ⟨hsets, hr⟩
    · obtain ⟨n, hfound⟩ := Files.ensureDirectory_found (Path.text_ne_of_rooted hrooted) hrun
      exact absurd hfound h.not_find
    · refine ⟨hr, fun more hmore => ?_⟩
      rw [hsets.elsewhere fun heq => hmore (List.append_right_eq_self.1 heq)]
      exact get?_append_eq_none (by simp [hnone]) hmore

end Tree

end Branding
