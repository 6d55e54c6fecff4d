import Branding.Proofs.Tree.Way

/-!
# What a path leads to

A path leads somewhere when its segments do and the system takes the path. So whatever is asked
about a path is asked about a way, and in particular what becomes of it in another tree. A tree that
has all directories and links of another one has all its ways. Where directories are only made, or
entries are only taken away, one of the two trees is within the other, and whatever is found in
the smaller one is found in the larger one.

## Main definitions

* `Tree.KeepsWays` — the directories and the links of one tree are in another
* `Tree.Within` — everything in one tree is in another
* `Tree.without` — a tree without what is at and below a location
* `Tree.Named` — every name stands for itself

## Main results

* `Tree.land_eq_ok_iff`, `Tree.find_directory_iff` — a path and its derivation
* `Tree.Leads.of_keepsWays`, `Tree.Lands.of_keepsWays` — a way in a tree that has more
* `Tree.Within.find`, `Tree.Within.land_free` — a path in a tree that has more
* `Tree.not_free_of_lands_append` — nothing can be made on the way to what is there
-/

namespace Branding

namespace Tree

variable {t t' : Tree} {mode : LastName} {k k' : Nat} {l d : Location} {s : String}
  {rest segments : List String} {x : Landing}

/-! ### A tree that has more -/

/-- The directories and the links of one tree are in another. -/
def KeepsWays (t t' : Tree) : Prop :=
  ∀ l e, t.get? l = some e → (∀ bytes, e ≠ .file bytes) → t'.get? l = some e

instance : Std.Refl KeepsWays where
  refl _ _ _ h _ := h

instance : IsTrans Tree KeepsWays where
  trans _ _ _ h h' l e hl he := h' l e (h l e hl he) he

theorem KeepsWays.directory (h : t.KeepsWays t') (hl : t.get? l = some .directory) :
    t'.get? l = some .directory :=
  h l _ hl nofun

theorem KeepsWays.link {target : Path} (h : t.KeepsWays t') (hl : t.get? l = some (.link target)) :
    t'.get? l = some (.link target) :=
  h l _ hl nofun

theorem Leads.of_keepsWays (h : t.Leads k l segments k' d) (hways : t.KeepsWays t') :
    t'.Leads k l segments k' d := by
  induction h with
  | arrived k l => exact .arrived k l
  | blank hs _ ih => exact .blank hs ih
  | up _ ih => exact .up ih
  | into hs hshort hget _ ih => exact .into hs hshort (hways.directory hget) ih
  | through hs hshort hget _ ih => exact .through hs hshort (hways.link hget) ih

/-- A way that ends the same in a tree that has more. -/
theorem Lands.of_keepsWays (h : t.Lands mode k l segments x) (hways : t.KeepsWays t')
    (hend : t'.get? x.location = t.get? x.location) : t'.Lands mode k l segments x := by
  induction h with
  | arrived k l => exact .arrived k l
  | blank hs _ ih => exact .blank hs (ih hend)
  | up _ ih => exact .up (ih hend)
  | into hs hshort hcreate hget _ ih =>
    exact .into hs hshort hcreate (hways.directory hget) (ih hend)
  | through hs hshort hcreate hget hheld _ ih =>
    exact .through hs hshort hcreate (hways.link hget) hheld (ih hend)
  | free hs hshort hcreate hget hends => exact .free hs hshort hcreate (hend.trans hget) hends
  | file hs hshort hcreate hget hends => exact .file hs hshort hcreate (hend.trans hget) hends
  | held hs hshort hcreate hget hheld => exact .held hs hshort hcreate (hend.trans hget) hheld

/-- A name that was free leads to the directory that is made there. -/
theorem Lands.leads_of_free {m : Location} (h : t.Lands mode k l segments (.free m))
    (hways : t.KeepsWays t') (hm : t'.get? m = some .directory) :
    ∃ k', t'.Leads k l segments k' m := by
  generalize hx : Landing.free m = x at h
  induction h with
  | arrived | file | held => cases hx
  | blank hs _ ih =>
    obtain ⟨k', hleads⟩ := ih hx
    exact ⟨k', .blank hs hleads⟩
  | up _ ih =>
    obtain ⟨k', hleads⟩ := ih hx
    exact ⟨k', .up hleads⟩
  | into hs hshort _ hget _ ih =>
    obtain ⟨k', hleads⟩ := ih hx
    exact ⟨k', .into hs hshort (hways.directory hget) hleads⟩
  | through hs hshort _ hget _ _ ih =>
    obtain ⟨k', hleads⟩ := ih hx
    exact ⟨k', .through hs hshort (hways.link hget) hleads⟩
  | @free k l s rest hs hshort _ _ hends =>
    cases hx
    have hblanks : ∀ b ∈ rest, b = "" ∨ b = "." :=
      fun b hb => Or.inl (LastName.eq_empty_of_endsBefore hends b hb)
    exact ⟨k, .into hs hshort hm (.blanks hblanks t' k _)⟩

/-- Where a file may be created, the file that is there then is found, and may be created again. -/
theorem Lands.of_create {mode' : LastName} (hmode : mode' = .follow ∨ mode' = .create)
    {bytes : ByteArray} (h : t.Lands .create k l segments x) (hways : t.KeepsWays t')
    (hnot : ∀ m, x ≠ .occupied m .directory) (hfile : t'.get? x.location = some (.file bytes)) :
    t'.Lands mode' k l segments (.occupied x.location (.file bytes)) := by
  have hends : ∀ {rest : List String}, LastName.create.endsBefore rest = true →
      mode'.endsBefore rest = true := by
    obtain rfl | rfl := hmode <;> exact id
  have hslashes : ∀ {rest : List String}, ¬(LastName.create = .create ∧ onlySlashes rest = true) →
      ¬(mode' = .create ∧ onlySlashes rest = true) := fun hnot h => hnot ⟨rfl, h.2⟩
  induction h with
  | arrived k l => exact absurd rfl (hnot l)
  | blank hs _ ih => exact .blank hs (ih hnot hfile)
  | up _ ih => exact .up (ih hnot hfile)
  | into hs hshort hcreate hget _ ih =>
    exact .into hs hshort (hslashes hcreate) (hways.directory hget) (ih hnot hfile)
  | through hs hshort hcreate hget _ _ ih =>
    refine .through hs hshort (hslashes hcreate) (hways.link hget) ?_ (ih hnot hfile)
    obtain rfl | rfl := hmode <;> simp [LastName.holds]
  | free hs hshort hcreate _ hlast | file hs hshort hcreate _ hlast =>
    exact .file hs hshort (hslashes hcreate) hfile (hends hlast)
  | held _ _ _ _ hheld => cases hheld.2

/-! ### Paths -/

theorem land_eq_ok_iff {p : Path} :
    t.land mode p = .ok x ↔ p.Admissible ∧ t.Lands mode maxLinks [] p.segments x := by
  rw [lands_iff]
  constructor
  · intro h
    unfold land at h
    split at h
    · cases h
    next hnul =>
      split at h
      · cases h
      next hempty =>
        split at h
        · cases h
        next hlong =>
          exact ⟨⟨by simpa using hnul, hempty, Nat.lt_of_not_le hlong,
            (lands_of_chase h).names_short⟩, h⟩
  · rintro ⟨hadm, h⟩
    rw [land, if_neg (by simpa using hadm.nul_not_mem), if_neg hadm.text_ne,
      if_neg (Nat.not_le.2 hadm.text_short), h]

theorem land_isName {p : Path} (h : t.land mode p = .ok x) : ∀ name ∈ x.location, IsName name :=
  (land_eq_ok_iff.1 h).2.isName (by simp)

theorem occupied?_eq_ok_iff {p : Path} {e : Entry} :
    (t.land mode p >>= Landing.occupied?) = .ok (l, e) ↔
      p.Admissible ∧ t.Lands mode maxLinks [] p.segments (.occupied l e) := by
  rw [← land_eq_ok_iff]
  cases t.land mode p with
  | error r => exact ⟨nofun, nofun⟩
  | ok landing =>
    cases landing with
    | free m => exact ⟨nofun, nofun⟩
    | occupied m e' =>
      constructor <;> intro h <;> cases h <;> rfl

theorem find_eq_ok_iff {p : Path} {e : Entry} :
    t.find p = .ok (l, e) ↔
      p.Admissible ∧ t.Lands .follow maxLinks [] p.segments (.occupied l e) :=
  occupied?_eq_ok_iff

theorem look_eq_ok_iff {p : Path} {e : Entry} :
    t.look p = .ok (l, e) ↔
      p.Admissible ∧ t.Lands .hold maxLinks [] p.segments (.occupied l e) :=
  occupied?_eq_ok_iff

theorem has_iff {p : Path} : t.has p = true ↔ ∃ l e, t.find p = .ok (l, e) := by
  rw [has]
  cases t.find p with
  | error r => exact ⟨nofun, nofun⟩
  | ok found => exact ⟨fun _ => ⟨found.1, found.2, rfl⟩, fun _ => rfl⟩

theorem isDirectory_iff {p : Path} :
    t.isDirectory p = true ↔ ∃ l, t.find p = .ok (l, .directory) := by
  rw [isDirectory]
  split
  next l hfind => exact ⟨fun _ => ⟨l, hfind⟩, fun _ => rfl⟩
  next hnot => exact ⟨nofun, fun ⟨l, hfind⟩ => absurd hfind (hnot l)⟩

theorem isFile_iff {p : Path} :
    t.isFile p = true ↔ ∃ l bytes, t.find p = .ok (l, .file bytes) := by
  rw [isFile]
  split
  next l bytes hfind => exact ⟨fun _ => ⟨l, bytes, hfind⟩, fun _ => rfl⟩
  next hnot => exact ⟨nofun, fun ⟨l, bytes, hfind⟩ => absurd hfind (hnot l bytes)⟩

theorem exists_find_of_readBytes {p : Path} {bytes : ByteArray}
    (h : t.readBytes p = .ok bytes) : ∃ l, t.find p = .ok (l, .file bytes) := by
  unfold readBytes at h
  cases hfind : t.find p with
  | error r => rw [hfind] at h; cases h
  | ok found =>
    obtain ⟨l, e⟩ := found
    rw [hfind] at h
    cases e with
    | directory | link target => cases h
    | file bytes' =>
      cases h
      exact ⟨l, rfl⟩

/-- A path leads to a directory when its segments do. -/
theorem find_directory_iff {p : Path} :
    t.find p = .ok (d, .directory) ↔ p.Admissible ∧ ∃ k, t.Leads maxLinks [] p.segments k d := by
  rw [find_eq_ok_iff]
  refine and_congr_right fun _ => ⟨fun h => ?_, fun ⟨k, h⟩ => ?_⟩
  · rw [← List.append_nil p.segments] at h
    obtain ⟨k, d', hleads, hlands⟩ := h.leads (Or.inr ⟨rfl, d, rfl⟩)
    cases hlands
    exact ⟨k, hleads⟩
  · simpa using h.lands (Or.inl rfl) (Lands.arrived k d : t.Lands .follow k d [] _)

/-- The path to a directory leads there in a tree that has more. -/
theorem KeepsWays.find {p : Path} (h : t.KeepsWays t') (hfind : t.find p = .ok (d, .directory)) :
    t'.find p = .ok (d, .directory) := by
  obtain ⟨hadm, k, hleads⟩ := find_directory_iff.1 hfind
  exact find_directory_iff.2 ⟨hadm, k, hleads.of_keepsWays h⟩

/-- A directory is found however the last name of its path is taken. -/
theorem find_of_land_directory {p : Path} (h : t.land mode p = .ok (.occupied d .directory)) :
    t.find p = .ok (d, .directory) := by
  obtain ⟨hadm, hlands⟩ := land_eq_ok_iff.1 h
  rw [← List.append_nil p.segments] at hlands
  obtain ⟨k, d', hleads, hend⟩ := hlands.leads (Or.inr ⟨rfl, d, rfl⟩)
  cases hend
  exact find_directory_iff.2 ⟨hadm, k, hleads⟩

theorem find_isName {p : Path} {e : Entry} (h : t.find p = .ok (l, e)) : ∀ name ∈ l, IsName name :=
  (find_eq_ok_iff.1 h).2.isName (by simp)

theorem get?_of_find {p : Path} {e : Entry} (h : t.find p = .ok (l, e)) : t.get? l = some e :=
  (find_eq_ok_iff.1 h).2.holdsIn t.get?_nil

/-- What is found is at the location that a path leads to. -/
theorem eq_of_map_find {p : Path} (h : (t.find p).map Prod.fst = .ok d) {e : Entry}
    (hfind : t.find p = .ok (l, e)) : l = d := by
  rw [hfind] at h
  exact Except.ok.inj h

theorem get?_of_look {p : Path} {e : Entry} (h : t.look p = .ok (l, e)) : t.get? l = some e :=
  (look_eq_ok_iff.1 h).2.holdsIn t.get?_nil

/-! ### Names that stand for themselves -/

/-- Every name of an entry stands for itself, as the system sees to. -/
structure Named (t : Tree) : Prop where
  isName : ∀ {l : Location} {name : String} {e : Entry}, t.get? (l ++ [name]) = some e → IsName name

theorem Named.isName_of_mem (ht : t.Named) {e : Entry} (h : t.get? l = some e) :
    ∀ name ∈ l, IsName name := by
  intro name hmem
  obtain ⟨front, rest, rfl⟩ := List.append_of_mem hmem
  rw [← List.singleton_append, ← List.append_assoc] at h
  by_cases hrest : rest = []
  · rw [hrest, List.append_nil] at h
    exact ht.isName h
  · exact ht.isName (get?_eq_directory h hrest)

/-! ### A tree within another -/

/-- Everything in one tree is in another. -/
def Within (t t' : Tree) : Prop := ∀ l e, t.get? l = some e → t'.get? l = some e

instance : Std.Refl Within where
  refl _ _ _ he := he

instance : IsTrans Tree Within where
  trans _ _ _ h h' l e he := h' l e (h l e he)

namespace Within

variable {p : Path} {m : Location}

theorem keepsWays (h : t.Within t') : t.KeepsWays t' := fun l e hl _ => h l e hl

theorem named (h : t.Within t') (ht : t'.Named) : t.Named := ⟨fun he => ht.isName (h _ _ he)⟩

theorem land_occupied (h : t.Within t') {e : Entry} (hland : t.land mode p = .ok (.occupied l e)) :
    t'.land mode p = .ok (.occupied l e) := by
  obtain ⟨hadm, hlands⟩ := land_eq_ok_iff.1 hland
  have hget : t.get? l = some e := get?_of_land_occupied hland
  exact land_eq_ok_iff.2 ⟨hadm, hlands.of_keepsWays h.keepsWays ((h l e hget).trans hget.symm)⟩

/-- What is free is free, unless the larger tree has something there. -/
theorem land_free (h : t.Within t') (hland : t.land mode p = .ok (.free m))
    (hm : t'.get? m = none) :
    t'.land mode p = .ok (.free m) := by
  obtain ⟨hadm, hlands⟩ := land_eq_ok_iff.1 hland
  have hget : t.get? m = none := (accepts_of_land_free hland).1
  exact land_eq_ok_iff.2 ⟨hadm, hlands.of_keepsWays h.keepsWays (hm.trans hget.symm)⟩

theorem find (h : t.Within t') {e : Entry} (hfind : t.find p = .ok (l, e)) :
    t'.find p = .ok (l, e) := by
  rw [find_eq_ok_iff, ← land_eq_ok_iff] at hfind ⊢
  exact h.land_occupied hfind

end Within

/-! ### A tree without a part of it -/

/-- A tree without what is at and below a location. Its root stays in any case. -/
def without (t : Tree) (l : Location) : Tree where
  entries := t.entries.filter fun m _ => ¬l <+: m
  root_not_mem h := t.root_not_mem (Std.ExtTreeMap.mem_filter.1 h).1
  closed m name h := by
    obtain ⟨hmem, hpast⟩ := Std.ExtTreeMap.mem_filter.1 h
    rw [Std.ExtTreeMap.getKey_eq, decide_eq_true_iff] at hpast
    refine (t.closed m name hmem).imp_right fun hdir => ?_
    have hle : ¬l <+: m := fun hle => hpast (hle.trans (List.prefix_append m [name]))
    rw [Std.ExtTreeMap.getElem?_filter', hdir, Option.filter_some, if_pos (decide_eq_true hle)]

theorem get?_without (t : Tree) (l m : Location) :
    (t.without l).get? m = if l <+: m ∧ m ≠ [] then none else t.get? m := by
  by_cases hm : m = []
  · simp [hm]
  rw [get?, if_neg hm, get?, if_neg hm, without, Std.ExtTreeMap.getElem?_filter']
  cases t.entries[m]? <;> by_cases hle : l <+: m <;> simp [hle, hm]

/-- What is not at or below a location is in every tree that keeps it. -/
theorem without_within (h : ∀ {m : Location} {e : Entry}, ¬l <+: m → t.get? m = some e →
    t'.get? m = some e) : (t.without l).Within t' := by
  intro m e he
  rw [get?_without] at he
  by_cases hm : m = []
  · subst hm
    rw [if_neg (by simp), get?_nil] at he
    rw [get?_nil, he]
  · by_cases hle : l <+: m
    · rw [if_pos ⟨hle, hm⟩] at he
      cases he
    · rw [if_neg (by simp [hle])] at he
      exact h hle he

/-! ### Where nothing can be made -/

section Free

variable {p q : Path} {m : Location} {e : Entry}

theorem not_free_of_lands (h : t.Lands .follow maxLinks [] q.segments (.occupied l e)) :
    t.land .name q ≠ .ok (.free m) := by
  intro hfree
  obtain ⟨l', e', hname⟩ := h.exists_name_occupied
  cases (land_eq_ok_iff.1 hfree).2.unique hname

theorem not_free_of_leads (h : t.Leads maxLinks [] q.segments k l) :
    t.land .name q ≠ .ok (.free m) :=
  not_free_of_lands h.lands_directory

theorem not_free_start : t.land .name (.start true) ≠ .ok (.free m) :=
  not_free_of_leads (.blank (Or.inl rfl) (.arrived maxLinks []))

/-- None of the directories around a path can be made where the path leads to something. -/
theorem not_free_of_lands_append (hrest : ∃ s ∈ rest, s ≠ "")
    (h : t.Lands mode maxLinks [] (segments ++ rest) x)
    (hq : q = .start true ∨ q.rooted = true ∧ q.segments <+: segments) :
    t.land .name q ≠ .ok (.free m) := by
  rcases hq with rfl | ⟨-, between, rfl⟩
  · exact not_free_start
  · rw [List.append_assoc] at h
    obtain ⟨s, hs, hne⟩ := hrest
    obtain ⟨k, d, hleads, -⟩ := h.leads (Or.inl ⟨s, List.mem_append_right _ hs, hne⟩)
    exact not_free_of_leads hleads

end Free

end Tree

end Branding
