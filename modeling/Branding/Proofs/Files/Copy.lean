import Branding.Files.Copy
import Branding.Proofs.Files.Write
import Mathlib.Data.List.Forall2

/-!
# What a copy holds

What is to be copied is listed first. Links are followed for that, so the list of a source with
links in it may go anywhere, but the names in it still are names, and by them nothing is copied out
of the target. Where no link is in the source, the list has every directory and every file of it. As
neither of the two trees lies in the other, nothing that is put in the target becomes part of the
source then, and every file is copied as it was listed.

## Main results

* `Tree.contentsWithin_names` — the list goes by names
* `Tree.PlainAt.mem_contentsWithin` — without links the list is complete
* `Files.moves_copyDirectory_of` — what a copy keeps, whatever comes of it
* `Files.copyInto_confined` — whatever comes of a copy, it stays in the target
* `Files.copyInto_get?`, `Files.copyDirectory_get?` — the target holds what the source holds
-/

namespace Branding

/-! ### What is to be copied -/

theorem forall₂_of_mapM_eq_ok {ε α β : Type} {f : α → Except ε β} {l : List α} {bs : List β}
    (h : l.mapM f = .ok bs) : List.Forall₂ (fun a b => f a = .ok b) l bs := by
  induction l generalizing bs with
  | nil =>
    cases h
    exact .nil
  | cons a l ih =>
    rw [List.mapM_cons] at h
    cases ha : f a with
    | error e => rw [ha] at h; cases h
    | ok b =>
      cases hl : l.mapM f with
      | error e => rw [ha, hl] at h; cases h
      | ok rest =>
        rw [ha, hl] at h
        cases h
        exact .cons ha (ih hl)

theorem exists_of_mem_forall₂ {α β : Type} {R : α → β → Prop} {l : List α} {bs : List β}
    (h : List.Forall₂ R l bs) : ∀ b ∈ bs, ∃ a ∈ l, R a b := by
  induction h with
  | nil => simp
  | cons hR _ ih =>
    rw [List.forall_mem_cons]
    refine ⟨⟨_, List.mem_cons_self, hR⟩, fun b hb => ?_⟩
    obtain ⟨a, ha, hab⟩ := ih b hb
    exact ⟨a, List.mem_cons_of_mem _ ha, hab⟩

theorem exists_mem_iff_of_forall₂ {α β : Type} {R : α → β → Prop} {l : List α} {bs : List β}
    (h : List.Forall₂ R l bs) {P : α → Prop} {Q : β → Prop}
    (hPQ : ∀ a ∈ l, ∀ b, R a b → (Q b ↔ P a)) : (∃ b ∈ bs, Q b) ↔ ∃ a ∈ l, P a := by
  induction h with
  | nil => simp
  | cons hR _ ih =>
    rw [List.forall_mem_cons] at hPQ
    rw [List.exists_mem_cons_iff, List.exists_mem_cons_iff, hPQ.1 _ hR, ih hPQ.2]

namespace Tree

/-- What lies strictly below some names lies at or below a name in their directory. -/
theorem exists_name_prefix_iff {t : Tree} {l : Location} {names found : List String} {e : Entry}
    (h : t.get? (l ++ found) = some e) :
    (∃ name ∈ t.names (l ++ names), names ++ [name] <+: found) ↔ names <+: found ∧
      found ≠ names := by
  constructor
  · rintro ⟨name, -, hle⟩
    refine ⟨(List.prefix_append names [name]).trans hle, ?_⟩
    rintro rfl
    have hlength := hle.length_le
    rw [List.length_append, List.length_singleton] at hlength
    omega
  · rintro ⟨⟨rest, rfl⟩, hne⟩
    cases rest with
    | nil => exact absurd (List.append_nil names) hne
    | cons name rest =>
      rw [← List.append_assoc] at h
      exact ⟨name, mem_names_of_get? h, rest, by simp⟩

/-- One level of a list: a directory is listed with what its names hold, and anything else for
itself. -/
theorem contentsWithin_succ_eq_ok {t : Tree} {p : Path} {depth : Nat} {names : List String}
    {c : Contents} (h : t.contentsWithin p (depth + 1) names = .ok c) :
    ∃ m e, t.find (p.descend names) = .ok (m, e) ∧
      (e ≠ .directory ∧ c = ⟨[], [names]⟩ ∨
        e = .directory ∧ ∃ inside,
          List.Forall₂ (fun name c' => t.contentsWithin p depth (names ++ [name]) = .ok c')
            (t.names m) inside ∧
          c = .ofDirectory names inside) := by
  unfold contentsWithin at h
  cases hfind : t.find (p.descend names) with
  | error r => rw [hfind] at h; cases h
  | ok entry =>
    obtain ⟨m, e⟩ := entry
    rw [hfind] at h
    refine ⟨m, e, rfl, ?_⟩
    cases e with
    | link target | file bytes =>
      cases h
      exact Or.inl ⟨by simp, rfl⟩
    | directory =>
      have h : (do
          let inside ← (t.names m).mapM fun name => t.contentsWithin p depth (names ++ [name])
          return Contents.ofDirectory names inside : Except Refusal Contents) = .ok c := h
      cases hinside : (t.names m).mapM fun name => t.contentsWithin p depth (names ++ [name]) with
      | error r => rw [hinside] at h; cases h
      | ok inside =>
        rw [hinside] at h
        cases h
        exact Or.inr ⟨rfl, inside, forall₂_of_mapM_eq_ok hinside, rfl⟩

theorem mem_ofDirectory {names found : List String} {inside : List Contents} :
    found ∈ (Contents.ofDirectory names inside).directories ∨
        found ∈ (Contents.ofDirectory names inside).files ↔
      found = names ∨ ∃ c ∈ inside, found ∈ c.directories ∨ found ∈ c.files := by
  simp only [Contents.ofDirectory, List.mem_cons, List.mem_flatMap, or_assoc, and_or_left,
    exists_or]

/-- The system takes the path of whatever is listed. -/
theorem contentsWithin_admissible {t : Tree} {p : Path} {depth : Nat} {names : List String}
    {c : Contents} (h : t.contentsWithin p depth names = .ok c) :
    ∀ found, found ∈ c.directories ∨ found ∈ c.files → (p.descend found).Admissible := by
  induction depth generalizing names c with
  | zero => cases h
  | succ depth ih =>
    intro found hfound
    obtain ⟨m, e, hfind, hrest⟩ := contentsWithin_succ_eq_ok h
    have hadm := (find_eq_ok_iff.1 hfind).1
    rcases hrest with ⟨-, rfl⟩ | ⟨-, inside, hinside, rfl⟩
    · obtain rfl : found = names := by simpa using hfound
      exact hadm
    · rcases mem_ofDirectory.1 hfound with rfl | ⟨c', hc', hmem⟩
      · exact hadm
      · obtain ⟨name, -, hlist⟩ := exists_of_mem_forall₂ hinside c' hc'
        exact ih hlist found hmem

/-- What is listed from some names on is listed by names that go on from there, and the files of a
directory by more than its own. -/
theorem contentsWithin_names {t : Tree} (ht : t.Named) {p : Path} {depth : Nat}
    {names : List String} (hnames : ∀ name ∈ names, IsName name) {c : Contents}
    (h : t.contentsWithin p depth names = .ok c) :
    (∀ found, found ∈ c.directories ∨ found ∈ c.files →
        names <+: found ∧ ∀ name ∈ found, IsName name) ∧
      (t.isDirectory (p.descend names) = true → names ∉ c.files) := by
  induction depth generalizing names c with
  | zero => cases h
  | succ depth ih =>
    obtain ⟨m, e, hfind, hrest⟩ := contentsWithin_succ_eq_ok h
    rcases hrest with ⟨he, rfl⟩ | ⟨rfl, inside, hinside, rfl⟩
    · refine ⟨fun found hfound => ?_, fun hdir => ?_⟩
      · obtain rfl : found = names := by simpa using hfound
        exact ⟨List.prefix_refl _, hnames⟩
      · obtain ⟨m', hfind'⟩ := isDirectory_iff.1 hdir
        rw [hfind] at hfind'
        cases hfind'
        exact absurd rfl he
    -- what is listed inside goes by one more name
    have hdeeper : ∀ c' ∈ inside, ∃ name, ∀ found, found ∈ c'.directories ∨ found ∈ c'.files →
        names ++ [name] <+: found ∧ ∀ name ∈ found, IsName name := by
      intro c' hc'
      obtain ⟨name, hmem, hlist⟩ := exists_of_mem_forall₂ hinside c' hc'
      obtain ⟨e, he⟩ := Option.isSome_iff_exists.1 (mem_names_iff.1 hmem)
      have hall : ∀ a ∈ names ++ [name], IsName a := by
        rw [List.forall_mem_append, List.forall_mem_singleton]
        exact ⟨hnames, ht.isName he⟩
      exact ⟨name, (ih hall hlist).1⟩
    constructor
    · intro found hfound
      rcases mem_ofDirectory.1 hfound with rfl | ⟨c', hc', hmem⟩
      · exact ⟨List.prefix_refl _, hnames⟩
      · obtain ⟨name, hall⟩ := hdeeper c' hc'
        exact ⟨(List.prefix_append names [name]).trans (hall found hmem).1, (hall found hmem).2⟩
    · intro _ hfile
      obtain ⟨c', hc', hmem⟩ := List.mem_flatMap.1 hfile
      obtain ⟨name, hall⟩ := hdeeper c' hc'
      have hlength := (hall names (Or.inr hmem)).1.length_le
      rw [List.length_append, List.length_singleton] at hlength
      omega

/-- Below a file is nothing. -/
theorem eq_of_prefix_of_file {t : Tree} {l : Location} {names found : List String}
    {bytes : ByteArray} (hfile : t.get? (l ++ names) = some (.file bytes)) (hle : names <+: found)
    {e : Entry} (he : t.get? (l ++ found) = some e) : found = names := by
  obtain ⟨rest, rfl⟩ := hle
  by_contra hne
  rw [← List.append_assoc, get?_append_eq_none (by simp [hfile])] at he
  · cases he
  · rintro rfl
    exact hne (List.append_nil names)

/-- Without links, what is listed from some names on is what there is at and below them. -/
theorem PlainAt.mem_contentsWithin {t : Tree} {p : Path} {l : Location} (hr : t.PlainAt p l)
    {depth : Nat} {names : List String} (hnames : ∀ name ∈ names, IsName name) {c : Contents}
    (h : t.contentsWithin p depth names = .ok c) (found : List String) :
    (found ∈ c.directories ↔ names <+: found ∧ t.get? (l ++ found) = some .directory) ∧
      (found ∈ c.files ↔ names <+: found ∧ ∃ bytes, t.get? (l ++ found) = some (.file bytes)) := by
  induction depth generalizing names c found with
  | zero => cases h
  | succ depth ih =>
    obtain ⟨m, e, hfind, hrest⟩ := contentsWithin_succ_eq_ok h
    obtain ⟨-, rfl, hget⟩ := (hr.find_descend_iff hnames).1 hfind
    rcases hrest with ⟨he, rfl⟩ | ⟨rfl, inside, hinside, rfl⟩
    · obtain ⟨bytes, rfl⟩ : ∃ bytes, e = .file bytes := by
        cases e with
        | directory => exact absurd rfl he
        | file bytes => exact ⟨bytes, rfl⟩
        | link target => exact absurd hget (hr.no_link names target)
      refine ⟨⟨fun hmem => by simp at hmem, ?_⟩, ?_, ?_⟩
      · rintro ⟨hle, he⟩
        rw [eq_of_prefix_of_file hget hle he, hget] at he
        cases he
      · intro hmem
        rw [List.mem_singleton.1 hmem]
        exact ⟨List.prefix_refl names, bytes, hget⟩
      · rintro ⟨hle, bytes', he⟩
        exact List.mem_singleton.2 (eq_of_prefix_of_file hget hle he)
    have hname : ∀ name ∈ t.names (l ++ names), ∀ a ∈ names ++ [name], IsName a := by
      intro name hmem
      obtain ⟨e, he⟩ := Option.isSome_iff_exists.1 (mem_names_iff.1 hmem)
      rw [List.append_assoc] at he
      exact hr.isName he
    constructor
    · rw [Contents.ofDirectory, List.mem_cons, List.mem_flatMap,
        exists_mem_iff_of_forall₂ hinside fun name hmem c' hc' =>
          (ih (hname name hmem) hc' found).1]
      constructor
      · rintro (rfl | ⟨name, hmem, hle, he⟩)
        · exact ⟨List.prefix_refl _, hget⟩
        · exact ⟨((exists_name_prefix_iff he).1 ⟨name, hmem, hle⟩).1, he⟩
      · rintro ⟨hle, he⟩
        by_cases heq : found = names
        · exact Or.inl heq
        · obtain ⟨name, hmem, hle'⟩ := (exists_name_prefix_iff he).2 ⟨hle, heq⟩
          exact Or.inr ⟨name, hmem, hle', he⟩
    · rw [Contents.ofDirectory, List.mem_flatMap,
        exists_mem_iff_of_forall₂ hinside fun name hmem c' hc' =>
          (ih (hname name hmem) hc' found).2]
      constructor
      · rintro ⟨name, hmem, hle, bytes, he⟩
        exact ⟨((exists_name_prefix_iff he).1 ⟨name, hmem, hle⟩).1, bytes, he⟩
      · rintro ⟨hle, bytes, he⟩
        have hne : found ≠ names := by
          rintro rfl
          rw [hget] at he
          cases he
        obtain ⟨name, hmem, hle'⟩ := (exists_name_prefix_iff he).2 ⟨hle, hne⟩
        exact ⟨name, hmem, hle', bytes, he⟩

end Tree

namespace Files

variable {t t' : Tree} {source target : Path} {l m : Location} {names : List String}

/-! ### Whatever comes of a copy -/

section Moves

variable {R : Tree → Tree → Prop} [Std.Refl R] [IsTrans Tree R]

/-- A copy keeps what is kept when a directory is made or a file is written, wherever it is. -/
theorem moves_copyInto_of (hmake : ∀ p, Moves R (Edit.makeDirectory p))
    (hwrite : ∀ p bytes, Moves R (Edit.writeFile p bytes)) : Moves R (copyInto source target) := by
  have hdirectory : ∀ p, Moves R (copyDirectoryEntry p) := fun p =>
    Moves.bind Moves.get fun _ => Moves.ite (fun _ => hmake p) fun _ => Moves.pure _
  have hfile : ∀ p q, Moves R (copyFile p q) := by
    intro p q
    refine Moves.bind Moves.get fun s => ?_
    cases s.find p with
    | error r => exact Moves.throw r
    | ok found =>
      refine Moves.bind (hwrite q _) fun _ => Moves.bind Moves.get fun s' => ?_
      split
      · exact hwrite q _
      · exact Moves.pure _
  refine Moves.bind Moves.get fun t => ?_
  extract_lets copied checked
  have hcopied : ∀ u, Moves R (copied u) := by
    intro u
    dsimp only [copied]
    cases t.contents source with
    | error r => exact Moves.throw _
    | ok c =>
      refine Moves.bind (Moves.forM fun names _ => ?_) fun _ => Moves.forM fun names _ => ?_
      · exact Moves.adapt (hdirectory _) _
      · exact Moves.adapt (hfile _ _) _
  have hchecked : ∀ u, Moves R (checked u) := fun u =>
    Moves.ite (fun _ => Moves.bind (Moves.throw _) hcopied) fun _ => hcopied u
  exact Moves.ite (fun _ => Moves.bind (Moves.throw _) hchecked) fun _ => hchecked ()

theorem moves_copyDirectory_of (hmake : ∀ p, Moves R (Edit.makeDirectory p))
    (hwrite : ∀ p bytes, Moves R (Edit.writeFile p bytes)) :
    Moves R (copyDirectory source target) :=
  Moves.bind (moves_ensureDirectory_of fun q _ => hmake q) fun _ =>
    Moves.adapt (moves_copyInto_of hmake hwrite) _

end Moves

/-- A target that was copied to is a directory, and what it holds is no link where none was. -/
theorem copyDirectory_plain (ht : t.Plain) (hne : target.text ≠ "") {u : Unit}
    (h : copyDirectory source target t = (.ok u, t')) :
    t'.Plain ∧ t'.isDirectory target = true := by
  refine ⟨(moves_copyDirectory_of Edit.plain_makeDirectory Edit.plain_writeFile).of_eq_ok h ht, ?_⟩
  obtain ⟨u', s, hmade, hcopy⟩ := bind_eq_ok.1 h
  obtain ⟨l, hfind⟩ := ensureDirectory_found hne hmade
  have hways : s.KeepsWays t' := (moves_copyInto_of Edit.keepsWays_makeDirectory
    Edit.keepsWays_writeFile).of_eq_ok (adapt_eq_ok.1 hcopy)
  exact Tree.isDirectory_iff.2 ⟨l, hways.find hfind⟩

/-! ### Nothing is copied out of the target -/

theorem confined_copyDirectoryEntry (hnames : ∀ name ∈ names, IsName name) :
    Moves (Tree.Confined target m) (copyDirectoryEntry (target.descend names)) := by
  have hmake : Moves (Tree.Confined target m) (Edit.makeDirectory (target.descend names)) := by
    by_cases hne : names = []
    · subst hne
      exact Edit.moves_makeDirectory_of fun s n hland _ hr =>
        absurd hland (Tree.not_free_of_lands (Tree.find_eq_ok_iff.1 hr.found).2)
    · intro s
      exact (Edit.makesAt_makeDirectory_descend (P := (m <+: ·)) hne hnames
        (List.prefix_append m names) s).confined fun _ h => h
  exact Moves.bind Moves.get fun s => Moves.ite (fun _ => hmake) fun _ => Moves.pure _

theorem confined_copyFile (hne : names ≠ []) (hnames : ∀ name ∈ names, IsName name) (file : Path) :
    Moves (Tree.Confined target m) (copyFile file (target.descend names)) := by
  refine Moves.bind Moves.get fun s => ?_
  cases s.find file with
  | error r => exact Moves.throw r
  | ok found =>
    obtain ⟨n, e⟩ := found
    refine Moves.bind (Edit.confined_writeFile hne hnames _) fun _ =>
      Moves.bind Moves.get fun s' => ?_
    cases s'.get? n with
    | none => exact Moves.pure _
    | some e' =>
      cases e' with
      | directory | link _ => exact Moves.pure _
      | file bytes => exact Edit.confined_writeFile hne hnames bytes

/-- Whatever comes of a copy, nothing outside the target becomes different, and no link gets
there. -/
theorem copyInto_confined (ht : t.Named) : t.Confined target m (copyInto source target t).2 := by
  have hstop : ∀ cause, t.Confined target m ((fail cause : Files Unit) t).2 :=
    fun cause => Std.Refl.refl t
  unfold copyInto
  rw [get_bind_apply]
  by_cases hhas : t.has source = true
  swap
  · rw [if_pos (by simpa using hhas)]
    exact hstop _
  rw [if_neg (by simpa using hhas)]
  by_cases hdir : t.isDirectory source = true
  swap
  · rw [if_pos (by simpa using hdir)]
    exact hstop _
  rw [if_neg (by simpa using hdir)]
  cases hcontents : t.contents source with
  | error r => exact hstop _
  | ok c =>
    obtain ⟨hnames, hbelow⟩ := Tree.contentsWithin_names ht (List.forall_mem_nil _) hcontents
    refine Moves.bind (Moves.forM fun names hmem => ?_) (fun _ => Moves.forM fun names hmem => ?_) t
    · exact Moves.adapt (confined_copyDirectoryEntry (hnames names (Or.inl hmem)).2) _
    · refine Moves.adapt (confined_copyFile ?_ (hnames names (Or.inr hmem)).2 _) _
      rintro rfl
      exact hbelow hdir hmem

/-! ### One entry after another -/

/-- A directory of the target that is there after it was copied. -/
theorem copyDirectoryEntry_sets (hr : t.PlainAt target m) (hnames : ∀ name ∈ names, IsName name)
    (hfree : ∀ e, t.get? (m ++ names) = some e → e = .directory) {u : Unit}
    (h : copyDirectoryEntry (target.descend names) t = (.ok u, t')) :
    (target.descend names).Admissible ∧ t.Sets (m ++ names) (some .directory) t' := by
  have hrest := get_bind_eq_ok.1 h
  by_cases hhas : t.has (target.descend names) = true
  · rw [if_neg (by simp [hhas])] at hrest
    obtain ⟨-, rfl⟩ := pure_eq_ok.1 hrest
    obtain ⟨n, e, hfind⟩ := Tree.has_iff.1 hhas
    obtain ⟨hadm, -, he⟩ := (hr.find_descend_iff hnames).1 hfind
    exact ⟨hadm, .same (by rw [he, hfree e he])⟩
  · rw [if_pos (by simp [hhas])] at hrest
    have hne : names ≠ [] := by
      rintro rfl
      exact hhas (Tree.has_iff.2 ⟨_, _, hr.found⟩)
    rcases Edit.makeDirectory_cases (target.descend names) t with
      ⟨n, hland, hrun, hsets⟩ | ⟨r, hrun⟩
    · obtain ⟨hlocation, hadm⟩ := hr.land_location hne hnames hland
      obtain rfl : n = m ++ names := hlocation
      rw [hrun] at hrest
      cases hrest
      exact ⟨hadm, hsets⟩
    · rw [hrun] at hrest
      cases hrest

/-- A file copied onto another is what it was. -/
theorem copyFile_sets (hs : t.PlainAt source l) (hr : t.PlainAt target m)
    (hapart : Location.Apart l m) {bytes : ByteArray}
    (hbytes : t.get? (l ++ names) = some (.file bytes)) {u : Unit}
    (h : copyFile (source.descend names) (target.descend names) t = (.ok u, t')) :
    (target.descend names).Admissible ∧ t.get? (m ++ names) ≠ some .directory ∧
      t.Sets (m ++ names) (some (.file bytes)) t' := by
  have hnames : ∀ name ∈ names, IsName name := hs.isName hbytes
  have hne : names ≠ [] := by
    rintro rfl
    rw [List.append_nil, hs.get?] at hbytes
    cases hbytes
  have hrest := get_bind_eq_ok.1 h
  cases hfind : t.find (source.descend names) with
  | error r =>
    rw [hfind] at hrest
    exact absurd hrest throw_ne_ok
  | ok found =>
    obtain ⟨n, e⟩ := found
    obtain ⟨-, rfl, -⟩ := (hs.find_descend_iff hnames).1 hfind
    rw [hfind] at hrest
    obtain ⟨u, t₁, hempty, hrest⟩ := bind_eq_ok.1 hrest
    obtain ⟨hadm, hnot, hfirst⟩ := Edit.writeFile_sets hr hne hnames hempty
    have hr₁ : t₁.PlainAt target m :=
      hr.of_sets hfirst hnames nofun fun hdir => absurd hdir hnot
    have hrest := get_bind_eq_ok.1 hrest
    rw [hfirst.elsewhere (hapart.append_ne names names), hbytes] at hrest
    obtain ⟨-, -, hsecond⟩ := Edit.writeFile_sets hr₁ hne hnames hrest
    refine ⟨hadm, hnot, fun n => ?_⟩
    rw [hsecond]
    split
    · rfl
    next hn => exact hfirst.elsewhere hn

/-- The source is what it was when something is put in the target. -/
theorem plainAt_of_sets_apart (hs : t.PlainAt source l) (hr : t.PlainAt target m)
    (hapart : Location.Apart l m) {e : Entry} (hsets : t.Sets (m ++ names) (some e) t')
    (hdir : t.get? (m ++ names) = some .directory → e = .directory) : t'.PlainAt source l := by
  have hways : t.KeepsWays t' := hsets.keepsWays fun e' he' hfile => by
    cases e' with
    | directory => rw [hdir he']
    | file bytes => exact absurd rfl (hfile bytes)
    | link link => exact absurd he' (hr.no_link names link)
  refine hs.of_found (hways.find hs.found) ?_
  rintro n ⟨names', rfl⟩
  exact hsets.elsewhere (hapart.append_ne names' names)

/-- The directories of a list, where nothing but directories was. -/
theorem forM_copyDirectoryEntry_eq_ok (hs : t.PlainAt source l) (hr : t.PlainAt target m)
    (hapart : Location.Apart l m) {list : List (List String)}
    (hnames : ∀ names ∈ list, ∀ name ∈ names, IsName name)
    (hfree : ∀ names e, t.get? (m ++ names) = some e → e = .directory) {u : Unit}
    (h : list.forM (fun names => copyStep (copyDirectoryEntry (target.descend names))) t =
      (.ok u, t')) :
    (t'.PlainAt source l ∧ t'.PlainAt target m) ∧
      (∀ names ∈ list, (target.descend names).Admissible ∧
        t'.get? (m ++ names) = some .directory) ∧
      ∀ n, (∀ names ∈ list, m ++ names ≠ n) → t'.get? n = t.get? n := by
  have hstep : ∀ names ∈ list, ∀ s s' : Tree, ((s.PlainAt source l ∧ s.PlainAt target m) ∧
      ∀ names e, s.get? (m ++ names) = some e → e = .directory) →
      copyStep (copyDirectoryEntry (target.descend names)) s = (.ok PUnit.unit, s') →
      ((s'.PlainAt source l ∧ s'.PlainAt target m) ∧
        ∀ names e, s'.get? (m ++ names) = some e → e = .directory) ∧
        (target.descend names).Admissible ∧ s.Sets (m ++ names) (some .directory) s' := by
    rintro names hmem s s' ⟨⟨hs, hr⟩, hfree⟩ hrun
    obtain ⟨hadm, hsets⟩ :=
      copyDirectoryEntry_sets hr (hnames names hmem) (hfree names) (adapt_eq_ok.1 hrun)
    refine ⟨⟨⟨plainAt_of_sets_apart hs hr hapart hsets fun _ => rfl,
      hr.of_sets hsets (hnames names hmem) nofun fun _ => rfl⟩, fun names' e he => ?_⟩, hadm, hsets⟩
    rw [hsets] at he
    split at he
    · exact (Option.some.inj he).symm
    · exact hfree names' e he
  obtain ⟨⟨hplain, -⟩, hthere, hrest⟩ :=
    Tree.forM_sets hstep (fun _ _ _ _ _ => rfl) h ⟨⟨hs, hr⟩, hfree⟩
  exact ⟨hplain, hthere, hrest⟩

/-- The files of a list, where they are not copied into their source. -/
theorem forM_copyFile_eq_ok (hs : t.PlainAt source l) (hr : t.PlainAt target m)
    (hapart : Location.Apart l m) {list : List (List String)}
    (hfiles : ∀ names ∈ list, ∃ bytes, t.get? (l ++ names) = some (.file bytes)) {u : Unit}
    (h : list.forM (fun names => copyStep (copyFile (source.descend names) (target.descend names)))
      t = (.ok u, t')) :
    t'.PlainAt target m ∧
      (∀ names ∈ list, (target.descend names).Admissible ∧
        t'.get? (m ++ names) = t.get? (l ++ names)) ∧
      ∀ n, (∀ names ∈ list, m ++ names ≠ n) → t'.get? n = t.get? n := by
  have hstep : ∀ names ∈ list, ∀ s s' : Tree, ((s.PlainAt source l ∧ s.PlainAt target m) ∧
      ∀ names, s.get? (l ++ names) = t.get? (l ++ names)) →
      copyStep (copyFile (source.descend names) (target.descend names)) s = (.ok PUnit.unit, s') →
      ((s'.PlainAt source l ∧ s'.PlainAt target m) ∧
        ∀ names, s'.get? (l ++ names) = t.get? (l ++ names)) ∧
        (target.descend names).Admissible ∧
        s.Sets (m ++ names) (t.get? (l ++ names)) s' := by
    rintro names hmem s s' ⟨⟨hs, hr⟩, hsame⟩ hrun
    obtain ⟨bytes, hbytes⟩ := hfiles names hmem
    obtain ⟨hadm, hnot, hsets⟩ :=
      copyFile_sets hs hr hapart ((hsame names).trans hbytes) (adapt_eq_ok.1 hrun)
    have hnames := hs.isName ((hsame names).trans hbytes)
    refine ⟨⟨⟨plainAt_of_sets_apart hs hr hapart hsets fun hdir => absurd hdir hnot,
      hr.of_sets hsets hnames nofun fun hdir => absurd hdir hnot⟩, fun names' => ?_⟩,
      hadm, hbytes ▸ hsets⟩
    rw [hsets.elsewhere (hapart.append_ne names' names), hsame]
  have hvalue : ∀ a ∈ list, ∀ b ∈ list, m ++ a = m ++ b →
      t.get? (l ++ a) = t.get? (l ++ b) := by
    intro a _ b _ heq
    rw [List.append_cancel_left heq]
  obtain ⟨⟨⟨-, hr'⟩, -⟩, hthere, hrest⟩ :=
    Tree.forM_sets hstep hvalue h ⟨⟨hs, hr⟩, fun _ => rfl⟩
  exact ⟨hr', hthere, hrest⟩

theorem isDirectory_of_copyInto {u : Unit} (h : copyInto source target t = (.ok u, t')) :
    t.isDirectory source = true := by
  have hrest := get_bind_eq_ok.1 h
  obtain ⟨-, hrest⟩ := ite_throw_bind_eq_ok.1 hrest
  obtain ⟨hdir, -⟩ := ite_throw_bind_eq_ok.1 hrest
  simpa using hdir

/-- The target, in which nothing was, holds what the source holds, and the system takes the paths of
both kinds. -/
theorem copyInto_get? (hs : t.PlainAt source l) (hr : t.PlainAt target m)
    (hapart : Location.Apart l m) (hempty : ∀ names, names ≠ [] → t.get? (m ++ names) = none)
    {u : Unit} (h : copyInto source target t = (.ok u, t')) :
    (∀ names, t'.get? (m ++ names) = t.get? (l ++ names)) ∧
      ∀ names, t'.get? (m ++ names) ≠ none →
        (source.descend names).Admissible ∧ (target.descend names).Admissible := by
  have hrest := get_bind_eq_ok.1 h
  obtain ⟨-, hrest⟩ := ite_throw_bind_eq_ok.1 hrest
  obtain ⟨-, hrest⟩ := ite_throw_bind_eq_ok.1 hrest
  cases hcontents : t.contents source with
  | error r =>
    simp only [hcontents] at hrest
    exact absurd hrest throw_ne_ok
  | ok c =>
    simp only [hcontents] at hrest
    obtain ⟨u', t₁, hdirs, hfiles⟩ := bind_eq_ok.1 hrest
    have hmem := hs.mem_contentsWithin (List.forall_mem_nil _) hcontents
    simp only [List.nil_prefix, true_and] at hmem
    have hnames : ∀ names ∈ c.directories, ∀ name ∈ names, IsName name :=
      fun names hn => hs.isName ((hmem names).1.1 hn)
    have hfree : ∀ names e, t.get? (m ++ names) = some e → e = .directory := by
      intro names e he
      by_cases hnil : names = []
      · rw [hnil, List.append_nil, hr.get?] at he
        exact (Option.some.inj he).symm
      · rw [hempty names hnil] at he
        cases he
    obtain ⟨⟨hs₁, hr₁⟩, hthere₁, hrest₁⟩ :=
      forM_copyDirectoryEntry_eq_ok hs hr hapart hnames hfree hdirs
    have hsource₁ : ∀ names, t₁.get? (l ++ names) = t.get? (l ++ names) :=
      fun names => hrest₁ _ fun names' _ => (hapart.append_ne names names').symm
    obtain ⟨-, hthere, hrest'⟩ := forM_copyFile_eq_ok hs₁ hr₁ hapart
      (fun names hn => by rw [hsource₁]; exact (hmem names).2.1 hn) hfiles
    have hcopied : ∀ names, t'.get? (m ++ names) = t.get? (l ++ names) := by
      intro names
      have hother : ∀ {list : List (List String)}, names ∉ list →
          ∀ names' ∈ list, m ++ names' ≠ m ++ names := by
        rintro list hnot names' hn heq
        obtain rfl := List.append_cancel_left heq
        exact hnot hn
      by_cases hfile : names ∈ c.files
      · rw [(hthere names hfile).2, hsource₁]
      rw [hrest' _ (hother hfile)]
      by_cases hd : names ∈ c.directories
      · rw [(hthere₁ names hd).2, (hmem names).1.1 hd]
      rw [hrest₁ _ (hother hd)]
      have hnil : names ≠ [] := by
        rintro rfl
        exact hd ((hmem []).1.2 (by rw [List.append_nil, hs.get?]))
      rw [hempty names hnil, eq_comm, Option.eq_none_iff_forall_ne_some]
      intro e he
      match e with
      | .directory => exact hd ((hmem names).1.2 he)
      | .file bytes => exact hfile ((hmem names).2.2 ⟨bytes, he⟩)
      | .link link => exact hs.no_link _ link he
    refine ⟨hcopied, fun names hne => ?_⟩
    rw [hcopied] at hne
    obtain ⟨e, he⟩ := Option.ne_none_iff_exists'.1 hne
    have hlisted := Tree.contentsWithin_admissible hcontents names
    match e with
    | .directory =>
      have hd := (hmem names).1.2 he
      exact ⟨hlisted (Or.inl hd), (hthere₁ names hd).1⟩
    | .file bytes =>
      have hf := (hmem names).2.2 ⟨bytes, he⟩
      exact ⟨hlisted (Or.inr hf), (hthere names hf).1⟩
    | .link link => exact absurd he (hs.no_link _ link)

/-! ### A copy to a place for a directory -/

/-- Whatever comes of a copy, what is apart from the target is what it was. -/
theorem copyDirectory_keepsBelow (ht : t.Named) (hv : t.Vacant target m)
    (hapart : Location.Apart l m) : t.KeepsBelow l (copyDirectory source target t).2 := by
  refine after_bind (P := t.KeepsBelow l) (.of_grows hv.grows hapart) fun u s hrun hmade => ?_
  have hnamed := (named_ensureDirectory target).of_eq_ok hrun ht
  exact hmade.trans ((copyInto_confined hnamed).keepsBelow (hv.made hrun).1 hapart)

/-- What is there outside the target stays there, wherever that is made. -/
theorem copyDirectory_get?_of_eq_some (ht : t.Named)
    (hmade : ∀ {u : Unit} {s : Tree}, ensureDirectory target t = (.ok u, s) → s.PlainAt target m)
    {n : Location} {e : Entry} (hn : ¬m <+: n) (he : t.get? n = some e) :
    (copyDirectory source target t).2.get? n = some e := by
  refine after_bind (P := fun s : Tree => s.get? n = some e)
    (within_ensureDirectory target t n e he) fun u s hrun hs => ?_
  have hnamed := (named_ensureDirectory target).of_eq_ok hrun ht
  exact ((copyInto_confined hnamed (hmade hrun)).2 n hn).trans hs

theorem copyDirectory_plainAt (ht : t.Named)
    (hmade : ∀ {u : Unit} {s : Tree}, ensureDirectory target t = (.ok u, s) → s.PlainAt target m)
    {u : Unit} (h : copyDirectory source target t = (.ok u, t')) : t'.PlainAt target m := by
  obtain ⟨u', s, hensure, hcopy⟩ := bind_eq_ok.1 h
  have hnamed := (named_ensureDirectory target).of_eq_ok hensure ht
  have hconfined : s.Confined target m (copyInto source target s).2 := copyInto_confined hnamed
  rw [adapt_eq_ok.1 hcopy] at hconfined
  exact (hconfined (hmade hensure)).1

/-- What the target holds after a copy, where the path of the source still leads there when the
target has been made. -/
theorem copyDirectory_get? (hv : t.Vacant target m) (hapart : Location.Apart l m)
    (hsource : ∀ {u : Unit} {s : Tree}, ensureDirectory target t = (.ok u, s) →
      s.isDirectory source = true → s.PlainAt source l) {u : Unit}
    (h : copyDirectory source target t = (.ok u, t')) :
    (∀ names, t'.get? (m ++ names) = t.get? (l ++ names)) ∧
      ∀ names, t'.get? (m ++ names) ≠ none →
        (source.descend names).Admissible ∧ (target.descend names).Admissible := by
  obtain ⟨u', s, hensure, hcopy⟩ := bind_eq_ok.1 h
  obtain ⟨hr, hempty⟩ := hv.made hensure
  have hcopy := adapt_eq_ok.1 hcopy
  have hs := hsource hensure (isDirectory_of_copyInto hcopy)
  obtain ⟨hcopied, hadm⟩ := copyInto_get? hs hr hapart hempty hcopy
  have hkept := Tree.KeepsBelow.of_grows hv.grows hapart
  rw [hensure] at hkept
  exact ⟨fun names => (hcopied names).trans (hkept.get?_append names), hadm⟩

end Files

end Branding
