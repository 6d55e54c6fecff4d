import Branding.Proofs.Path.Lexical
import Branding.Tree.Lookup
import Mathlib.Data.List.Induction

/-!
# The way of a path

Following a path goes along its segments, and through the links that it comes to, whose own segments
are put in front of those that are left. Where that ends well, it is a derivation with one rule for
every kind of step, and what is to be said about the end of a path is said by induction on it.

A way that has not come to its end yet is in a directory. There it can be cut in two, and what lies
behind the cut does not depend on how one came there. That does not hold of the last name, since a
link there may be taken for itself, and so a path is always cut before a name.

## Main definitions

* `Tree.Lands` — where segments lead from a directory
* `Tree.Leads` — the directory that segments lead to, links followed
* `Path.Admissible` — a path that the system takes

## Main results

* `Tree.lands_iff` — where segments lead is where the links are chased to
* `Tree.Leads.lands`, `Tree.Lands.leads` — a way put together and cut in two
* `Tree.Lands.mono`, `Tree.Leads.directory_unique` — it does not matter how many links may be
  followed
-/

namespace Branding

namespace Tree

/-! ### Above and below an entry -/

/-- Above every entry are directories. -/
theorem get?_eq_directory {t : Tree} {l rest : Location} {e : Entry}
    (h : t.get? (l ++ rest) = some e) (hne : rest ≠ []) : t.get? l = some .directory := by
  induction rest using List.reverseRecOn generalizing e with
  | nil => exact absurd rfl hne
  | append_singleton front name ih =>
    rw [← List.append_assoc] at h
    have hdir := isDirectoryAt_iff.1 (isDirectoryAt_of_get? h)
    by_cases hfront : front = []
    · rwa [hfront, List.append_nil] at hdir
    · exact ih hdir hfront

theorem get?_eq_directory_of_prefix {t : Tree} {l m : Location} {e : Entry} (h : t.get? l = some e)
    (hle : m <+: l) (hne : m ≠ l) : t.get? m = some .directory := by
  obtain ⟨rest, rfl⟩ := hle
  refine get?_eq_directory h ?_
  rintro rfl
  exact hne (List.append_nil m).symm

/-- Below what is no directory is nothing. -/
theorem get?_append_eq_none {t : Tree} {l : Location} (h : t.get? l ≠ some .directory)
    {rest : Location} (hne : rest ≠ []) : t.get? (l ++ rest) = none := by
  rw [Option.eq_none_iff_forall_ne_some]
  exact fun e he => h (get?_eq_directory he hne)

theorem mem_names_iff {t : Tree} {l : Location} {name : String} :
    name ∈ t.names l ↔ (t.get? (l ++ [name])).isSome = true := by
  rw [mem_names, Std.ExtTreeMap.mem_iff_isSome_getElem?]
  simp [get?]

/-- Names below a directory begin with a name in it. -/
theorem mem_names_of_get? {t : Tree} {l rest : Location} {name : String} {e : Entry}
    (h : t.get? (l ++ name :: rest) = some e) : name ∈ t.names l := by
  rw [mem_names_iff]
  rw [← List.singleton_append, ← List.append_assoc] at h
  by_cases hrest : rest = []
  · rw [hrest, List.append_nil] at h
    simp [h]
  · simp [get?_eq_directory h hrest]

/-- Nothing is below a directory without names in it. -/
theorem get?_append_of_names_eq_nil {t : Tree} {l rest : Location} (h : t.names l = [])
    (hne : rest ≠ []) : t.get? (l ++ rest) = none := by
  rw [Option.eq_none_iff_forall_ne_some]
  intro e he
  obtain ⟨name, rest, rfl⟩ := List.exists_cons_of_ne_nil hne
  have hmem := mem_names_of_get? he
  rw [h] at hmem
  cases hmem

end Tree

/-- Where a landing is. -/
def Landing.location : Landing → Location
  | .occupied l _ => l
  | .free l => l

/-- A path that the system takes: its text and its names are not too long. -/
structure Path.Admissible (p : Path) : Prop where
  nul_not_mem : '\x00' ∉ p.text.toList
  text_ne : p.text ≠ ""
  text_short : p.text.utf8ByteSize < Tree.pathBytesBound
  names_short : ∀ s ∈ p.segments, s.utf8ByteSize ≤ Tree.maxNameBytes

theorem utf8ByteSize_le_of_not_name {s : String} (h : s = "" ∨ s = "." ∨ s = "..") :
    s.utf8ByteSize ≤ Tree.maxNameBytes := by
  rcases h with rfl | rfl | rfl <;> decide

namespace LastName

variable {mode : LastName} {rest : List String}

theorem eq_empty_of_endsBefore (h : mode.endsBefore rest = true) : ∀ s ∈ rest, s = "" := by
  rw [endsBefore, Bool.or_eq_true, Bool.and_eq_true, onlySlashes, Bool.and_eq_true,
    List.all_eq_true] at h
  rcases h with h | ⟨-, -, h⟩
  · rw [List.isEmpty_iff] at h
    simp [h]
  · exact fun s hs => beq_iff_eq.1 (h s hs)

theorem not_endsBefore (h : ∃ s ∈ rest, s ≠ "") : mode.endsBefore rest = false := by
  obtain ⟨s, hs, hne⟩ := h
  rw [Bool.eq_false_iff]
  exact fun hends => hne (eq_empty_of_endsBefore hends s hs)

end LastName

theorem not_onlySlashes {rest : List String} (h : ∃ s ∈ rest, s ≠ "") :
    onlySlashes rest = false := by
  obtain ⟨s, hs, hne⟩ := h
  rw [onlySlashes, Bool.and_eq_false_iff, List.all_eq_false]
  exact Or.inr ⟨s, hs, by simpa using hne⟩

namespace Tree

/-! ### Where segments lead, step by step -/

/-- Where segments lead from the directory at a location, when as many links may be followed. -/
inductive Lands (t : Tree) (mode : LastName) : Nat → Location → List String → Landing → Prop
  /-- Nothing is left to follow. -/
  | arrived (k : Nat) (l : Location) : Lands t mode k l [] (.occupied l .directory)
  | blank {k : Nat} {l : Location} {s : String} {rest : List String} {x : Landing}
    (hs : s = "" ∨ s = ".") (h : Lands t mode k l rest x) : Lands t mode k l (s :: rest) x
  | up {k : Nat} {l : Location} {rest : List String} {x : Landing}
    (h : Lands t mode k l.dropLast rest x) : Lands t mode k l (".." :: rest) x
  /-- A directory is gone into. -/
  | into {k : Nat} {l : Location} {s : String} {rest : List String} {x : Landing} (hs : IsName s)
    (hshort : s.utf8ByteSize ≤ maxNameBytes)
    (hcreate : ¬(mode = .create ∧ onlySlashes rest = true))
    (hget : t.get? (l ++ [s]) = some .directory) (h : Lands t mode k (l ++ [s]) rest x) :
    Lands t mode k l (s :: rest) x
  /-- A link is followed. -/
  | through {k : Nat} {l : Location} {s : String} {rest : List String} {x : Landing} {target : Path}
    (hs : IsName s) (hshort : s.utf8ByteSize ≤ maxNameBytes)
    (hcreate : ¬(mode = .create ∧ onlySlashes rest = true))
    (hget : t.get? (l ++ [s]) = some (.link target))
    (hheld : ¬(mode.endsBefore rest = true ∧ mode.holds = true))
    (h : Lands t mode k (if target.rooted then [] else l) (target.segments ++ rest) x) :
    Lands t mode (k + 1) l (s :: rest) x
  /-- The last name is free. -/
  | free {k : Nat} {l : Location} {s : String} {rest : List String} (hs : IsName s)
    (hshort : s.utf8ByteSize ≤ maxNameBytes)
    (hcreate : ¬(mode = .create ∧ onlySlashes rest = true))
    (hget : t.get? (l ++ [s]) = none) (hends : mode.endsBefore rest = true) :
    Lands t mode k l (s :: rest) (.free (l ++ [s]))
  /-- The last name is that of a file. -/
  | file {k : Nat} {l : Location} {s : String} {rest : List String} {bytes : ByteArray}
    (hs : IsName s) (hshort : s.utf8ByteSize ≤ maxNameBytes)
    (hcreate : ¬(mode = .create ∧ onlySlashes rest = true))
    (hget : t.get? (l ++ [s]) = some (.file bytes)) (hends : mode.endsBefore rest = true) :
    Lands t mode k l (s :: rest) (.occupied (l ++ [s]) (.file bytes))
  /-- The last name is that of a link, which is taken for itself. -/
  | held {k : Nat} {l : Location} {s : String} {rest : List String} {target : Path} (hs : IsName s)
    (hshort : s.utf8ByteSize ≤ maxNameBytes)
    (hcreate : ¬(mode = .create ∧ onlySlashes rest = true))
    (hget : t.get? (l ++ [s]) = some (.link target))
    (hheld : mode.endsBefore rest = true ∧ mode.holds = true) :
    Lands t mode k l (s :: rest) (.occupied (l ++ [s]) (.link target))

/-- The segments lead from one directory to another, links followed. The second number is that of
the links that may still be followed then. -/
inductive Leads (t : Tree) : Nat → Location → List String → Nat → Location → Prop
  | arrived (k : Nat) (l : Location) : Leads t k l [] k l
  | blank {k k' : Nat} {l d : Location} {s : String} {rest : List String} (hs : s = "" ∨ s = ".")
    (h : Leads t k l rest k' d) : Leads t k l (s :: rest) k' d
  | up {k k' : Nat} {l d : Location} {rest : List String} (h : Leads t k l.dropLast rest k' d) :
    Leads t k l (".." :: rest) k' d
  | into {k k' : Nat} {l d : Location} {s : String} {rest : List String} (hs : IsName s)
    (hshort : s.utf8ByteSize ≤ maxNameBytes) (hget : t.get? (l ++ [s]) = some .directory)
    (h : Leads t k (l ++ [s]) rest k' d) : Leads t k l (s :: rest) k' d
  | through {k k' : Nat} {l d : Location} {s : String} {rest : List String} {target : Path}
    (hs : IsName s) (hshort : s.utf8ByteSize ≤ maxNameBytes)
    (hget : t.get? (l ++ [s]) = some (.link target))
    (h : Leads t k (if target.rooted then [] else l) (target.segments ++ rest) k' d) :
    Leads t (k + 1) l (s :: rest) k' d

variable {t t' : Tree} {mode : LastName} {k k' : Nat} {l d : Location} {s : String}
  {rest segments : List String} {x : Landing}

/-! ### One segment at a time -/

theorem proceed_cons (t : Tree) (mode : LastName) (l : Location) (s : String) (rest : List String) :
    t.proceed mode l (s :: rest) =
      if s = "" ∨ s = "." then t.proceed mode l rest
      else if s = ".." then t.proceed mode l.dropLast rest
      else if mode = .create ∧ onlySlashes rest then .error .isDirectory
      else if maxNameBytes < s.utf8ByteSize then .error .nameTooLong
      else
        match t.get? (l ++ [s]) with
        | none =>
          if mode.endsBefore rest then .ok (.arrival (.free (l ++ [s]))) else .error .absent
        | some .directory => t.proceed mode (l ++ [s]) rest
        | some (.file bytes) =>
          if mode.endsBefore rest then .ok (.arrival (.occupied (l ++ [s]) (.file bytes)))
          else .error .notDirectory
        | some (.link target) =>
          if mode.endsBefore rest ∧ mode.holds then
            .ok (.arrival (.occupied (l ++ [s]) (.link target)))
          else .ok (.link l target rest) := rfl

theorem chase_eq_proceed (t : Tree) (mode : LastName) (k : Nat) (l : Location)
    (segments : List String) :
    t.chase mode k l segments =
      match t.proceed mode l segments with
      | .error r => .error r
      | .ok (.arrival landing) => .ok landing
      | .ok (.link l target rest) =>
        match k with
        | 0 => .error .tooManyLinks
        | k + 1 => t.chase mode k (if target.rooted then [] else l) (target.segments ++ rest) := by
  have hchase := chase.eq_def t mode k l segments
  rcases hproceed : t.proceed mode l segments with r | landing | ⟨l, target, rest⟩
  · simp only [hchase, hproceed]
  · simp only [hchase, hproceed]
  · cases k <;> simp only [hchase, hproceed]

theorem chase_nil (t : Tree) (mode : LastName) (k : Nat) (l : Location) :
    t.chase mode k l [] = .ok (.occupied l .directory) := by
  rw [chase.eq_def]
  rfl

theorem chase_blank (h : s = "" ∨ s = ".") :
    t.chase mode k l (s :: rest) = t.chase mode k l rest := by
  rw [chase_eq_proceed, proceed_cons, if_pos h, ← chase_eq_proceed]

theorem chase_up : t.chase mode k l (".." :: rest) = t.chase mode k l.dropLast rest := by
  rw [chase_eq_proceed, proceed_cons, if_neg (by decide), if_pos rfl, ← chase_eq_proceed]

theorem chase_name (h : IsName s) :
    t.chase mode k l (s :: rest) =
      if mode = .create ∧ onlySlashes rest then .error .isDirectory
      else if maxNameBytes < s.utf8ByteSize then .error .nameTooLong
      else
        match t.get? (l ++ [s]) with
        | none => if mode.endsBefore rest then .ok (.free (l ++ [s])) else .error .absent
        | some .directory => t.chase mode k (l ++ [s]) rest
        | some (.file bytes) =>
          if mode.endsBefore rest then .ok (.occupied (l ++ [s]) (.file bytes))
          else .error .notDirectory
        | some (.link target) =>
          if mode.endsBefore rest ∧ mode.holds then .ok (.occupied (l ++ [s]) (.link target))
          else
            match k with
            | 0 => .error .tooManyLinks
            | k + 1 =>
              t.chase mode k (if target.rooted then [] else l) (target.segments ++ rest) := by
  rw [chase_eq_proceed, proceed_cons, if_neg (not_or.2 ⟨h.1, h.2.1⟩), if_neg h.2.2]
  by_cases hcreate : mode = .create ∧ onlySlashes rest = true
  · rw [if_pos hcreate, if_pos hcreate]
  rw [if_neg hcreate, if_neg hcreate]
  by_cases hlong : maxNameBytes < s.utf8ByteSize
  · rw [if_pos hlong, if_pos hlong]
  rw [if_neg hlong, if_neg hlong]
  cases t.get? (l ++ [s]) with
  | none => by_cases hends : mode.endsBefore rest = true <;> simp [hends]
  | some e =>
    cases e with
    | directory => exact (chase_eq_proceed t mode k (l ++ [s]) rest).symm
    | file bytes => by_cases hends : mode.endsBefore rest = true <;> simp [hends]
    | link target =>
      by_cases hheld : mode.endsBefore rest = true ∧ mode.holds = true
      · simp only [if_pos hheld]
      · simp only [if_neg hheld]

/-! ### Where segments lead -/

theorem Lands.chase_eq (h : t.Lands mode k l segments x) : t.chase mode k l segments = .ok x := by
  induction h with
  | arrived k l => exact chase_nil t mode k l
  | blank hs _ ih => rw [chase_blank hs, ih]
  | up _ ih => rw [chase_up, ih]
  | into hs hshort hcreate hget _ ih =>
    rw [chase_name hs, if_neg hcreate, if_neg (Nat.not_lt.2 hshort), hget]
    exact ih
  | through hs hshort hcreate hget hheld _ ih =>
    rw [chase_name hs, if_neg hcreate, if_neg (Nat.not_lt.2 hshort), hget]
    simp only [if_neg hheld]
    exact ih
  | free hs hshort hcreate hget hends | file hs hshort hcreate hget hends =>
    rw [chase_name hs, if_neg hcreate, if_neg (Nat.not_lt.2 hshort), hget]
    exact if_pos hends
  | held hs hshort hcreate hget hheld =>
    rw [chase_name hs, if_neg hcreate, if_neg (Nat.not_lt.2 hshort), hget]
    exact if_pos hheld

/-- One segment of a way, where the rest of it and the ways behind a link are known. -/
theorem lands_cons_of_chase
    (hrest : ∀ l', t.chase mode k l' rest = .ok x → t.Lands mode k l' rest x)
    (hlinks : ∀ k', k = k' + 1 → ∀ l' segments', t.chase mode k' l' segments' = .ok x →
      t.Lands mode k' l' segments' x)
    (h : t.chase mode k l (s :: rest) = .ok x) : t.Lands mode k l (s :: rest) x := by
  by_cases hblank : s = "" ∨ s = "."
  · rw [chase_blank hblank] at h
    exact .blank hblank (hrest l h)
  by_cases hup : s = ".."
  · subst hup
    rw [chase_up] at h
    exact .up (hrest _ h)
  have hs : IsName s := ⟨(not_or.1 hblank).1, (not_or.1 hblank).2, hup⟩
  rw [chase_name hs] at h
  split at h
  · cases h
  next hcreate =>
    split at h
    · cases h
    next hlong =>
      have hshort := Nat.le_of_not_lt hlong
      split at h
      next hget =>
        split at h
        next hends =>
          cases h
          exact .free hs hshort hcreate hget hends
        · cases h
      next hget => exact .into hs hshort hcreate hget (hrest _ h)
      next bytes hget =>
        split at h
        next hends =>
          cases h
          exact .file hs hshort hcreate hget hends
        · cases h
      next target hget =>
        split at h
        next hheld =>
          cases h
          exact .held hs hshort hcreate hget hheld
        next hheld =>
          split at h
          · cases h
          next k' => exact .through hs hshort hcreate hget hheld (hlinks k' rfl _ _ h)

theorem lands_of_chase (h : t.chase mode k l segments = .ok x) : t.Lands mode k l segments x := by
  induction k generalizing l segments with
  | zero =>
    induction segments generalizing l with
    | nil =>
      rw [chase_nil] at h
      cases h
      exact .arrived 0 l
    | cons s rest ih => exact lands_cons_of_chase (fun l' => ih) (by simp) h
  | succ k ihk =>
    induction segments generalizing l with
    | nil =>
      rw [chase_nil] at h
      cases h
      exact .arrived (k + 1) l
    | cons s rest ih =>
      refine lands_cons_of_chase (fun l' => ih) (fun k' hk l' segments' h' => ?_) h
      cases hk
      exact ihk h'

theorem lands_iff : t.Lands mode k l segments x ↔ t.chase mode k l segments = .ok x :=
  ⟨Lands.chase_eq, lands_of_chase⟩

theorem Lands.unique {y : Landing} (h : t.Lands mode k l segments x)
    (h' : t.Lands mode k l segments y) : x = y :=
  Except.ok.inj (h.chase_eq.symm.trans h'.chase_eq)

/-- A landing is true of the tree. -/
theorem Lands.holdsIn (h : t.Lands mode k l segments x) (hl : t.get? l = some .directory) :
    x.HoldsIn t :=
  chase_holdsIn (isDirectoryAt_iff.2 hl) h.chase_eq

theorem Lands.names_short (h : t.Lands mode k l segments x) :
    ∀ s ∈ segments, s.utf8ByteSize ≤ maxNameBytes := by
  have hlast : ∀ {s : String} {rest : List String}, s.utf8ByteSize ≤ maxNameBytes →
      mode.endsBefore rest = true → ∀ s' ∈ s :: rest, s'.utf8ByteSize ≤ maxNameBytes := by
    intro s rest hshort hends
    rw [List.forall_mem_cons]
    refine ⟨hshort, fun s' hs' => ?_⟩
    exact utf8ByteSize_le_of_not_name (Or.inl (LastName.eq_empty_of_endsBefore hends s' hs'))
  induction h with
  | arrived k l => simp
  | blank hs _ ih =>
    exact List.forall_mem_cons.2 ⟨utf8ByteSize_le_of_not_name (hs.imp_right Or.inl), ih⟩
  | up _ ih => exact List.forall_mem_cons.2 ⟨by decide, ih⟩
  | into hs hshort _ _ _ ih => exact List.forall_mem_cons.2 ⟨hshort, ih⟩
  | through hs hshort _ _ _ _ ih =>
    exact List.forall_mem_cons.2 ⟨hshort, (List.forall_mem_append.1 ih).2⟩
  | free hs hshort _ _ hends | file hs hshort _ _ hends => exact hlast hshort hends
  | held hs hshort _ _ hheld => exact hlast hshort hheld.1

/-- A way comes by names. -/
theorem Lands.isName (h : t.Lands mode k l segments x) (hl : ∀ name ∈ l, IsName name) :
    ∀ name ∈ x.location, IsName name := by
  have hconcat : ∀ {l : Location} {s : String}, (∀ name ∈ l, IsName name) → IsName s →
      ∀ name ∈ l ++ [s], IsName name := by
    intro l s hl hs
    rw [List.forall_mem_append, List.forall_mem_singleton]
    exact ⟨hl, hs⟩
  induction h with
  | arrived k l => exact hl
  | blank _ _ ih => exact ih hl
  | up _ ih => exact ih fun name hname => hl name (List.dropLast_subset _ hname)
  | into hs _ _ _ _ ih => exact ih (hconcat hl hs)
  | through _ _ _ _ _ _ ih =>
    refine ih ?_
    split
    · simp
    · exact hl
  | free hs | file hs | held hs => exact hconcat hl hs

/-! ### A way cut in two -/

/-- A way goes on behind the directory that it has led to. -/
theorem Leads.lands (h : t.Leads k l segments k' d) (hmode : mode = .follow ∨ ∃ s ∈ rest, s ≠ "")
    (hrest : t.Lands mode k' d rest x) : t.Lands mode k l (segments ++ rest) x := by
  have hcreate : ∀ more : List String, ¬(mode = .create ∧ onlySlashes (more ++ rest) = true) := by
    rintro more ⟨rfl, hslashes⟩
    obtain ⟨s, hs, hne⟩ := hmode.resolve_left nofun
    rw [not_onlySlashes ⟨s, List.mem_append_right more hs, hne⟩] at hslashes
    cases hslashes
  have hheld : ∀ more : List String,
      ¬(mode.endsBefore (more ++ rest) = true ∧ mode.holds = true) := by
    rintro more ⟨hends, hholds⟩
    rcases hmode with rfl | ⟨s, hs, hne⟩
    · cases hholds
    · rw [LastName.not_endsBefore ⟨s, List.mem_append_right more hs, hne⟩] at hends
      cases hends
  induction h with
  | arrived k l => exact hrest
  | blank hs _ ih => exact .blank hs (ih hrest)
  | up _ ih => exact .up (ih hrest)
  | into hs hshort hget _ ih => exact .into hs hshort (hcreate _) hget (ih hrest)
  | through hs hshort hget _ ih =>
    have hrest' := ih hrest
    rw [List.append_assoc] at hrest'
    exact .through hs hshort (hcreate _) hget (hheld _) hrest'

/-- A way can be cut before a name, or where it ends in a directory. -/
theorem Lands.leads (h : t.Lands mode k l (segments ++ rest) x)
    (hrest : (∃ s ∈ rest, s ≠ "") ∨ rest = [] ∧ ∃ d, x = .occupied d .directory) :
    ∃ k' d, t.Leads k l segments k' d ∧ t.Lands mode k' d rest x := by
  have hlast : ∀ more : List String, mode.endsBefore (more ++ rest) = true →
      rest = [] ∧ ∃ d, x = .occupied d .directory := by
    intro more hends
    refine hrest.resolve_left ?_
    rintro ⟨s, hs, hne⟩
    rw [LastName.not_endsBefore ⟨s, List.mem_append_right more hs, hne⟩] at hends
    cases hends
  generalize hall : segments ++ rest = all at h
  induction h generalizing segments with
  | arrived k l =>
    obtain ⟨rfl, rfl⟩ := List.append_eq_nil_iff.1 hall
    exact ⟨k, l, .arrived k l, .arrived k l⟩
  | @blank k l s rest' x hs h ih =>
    cases segments with
    | nil =>
      rw [List.nil_append] at hall
      exact ⟨k, l, .arrived k l, hall ▸ .blank hs h⟩
    | cons a segments =>
      obtain ⟨rfl, rfl⟩ := List.cons.inj hall
      obtain ⟨k', d, hleads, hlands⟩ := ih hrest hlast rfl
      exact ⟨k', d, .blank hs hleads, hlands⟩
  | @up k l rest' x h ih =>
    cases segments with
    | nil =>
      rw [List.nil_append] at hall
      exact ⟨k, l, .arrived k l, hall ▸ .up h⟩
    | cons a segments =>
      obtain ⟨rfl, rfl⟩ := List.cons.inj hall
      obtain ⟨k', d, hleads, hlands⟩ := ih hrest hlast rfl
      exact ⟨k', d, .up hleads, hlands⟩
  | @into k l s rest' x hs hshort hcreate hget h ih =>
    cases segments with
    | nil =>
      rw [List.nil_append] at hall
      exact ⟨k, l, .arrived k l, hall ▸ .into hs hshort hcreate hget h⟩
    | cons a segments =>
      obtain ⟨rfl, rfl⟩ := List.cons.inj hall
      obtain ⟨k', d, hleads, hlands⟩ := ih hrest hlast rfl
      exact ⟨k', d, .into hs hshort hget hleads, hlands⟩
  | @through k l s rest' x target hs hshort hcreate hget hheld h ih =>
    cases segments with
    | nil =>
      rw [List.nil_append] at hall
      exact ⟨k + 1, l, .arrived _ l, hall ▸ .through hs hshort hcreate hget hheld h⟩
    | cons a segments =>
      obtain ⟨rfl, rfl⟩ := List.cons.inj hall
      obtain ⟨k', d, hleads, hlands⟩ := ih hrest hlast (List.append_assoc _ _ _)
      exact ⟨k', d, .through hs hshort hget hleads, hlands⟩
  | @free k l s rest' hs hshort hcreate hget hends =>
    cases segments with
    | nil =>
      rw [List.nil_append] at hall
      exact ⟨k, l, .arrived k l, hall ▸ .free hs hshort hcreate hget hends⟩
    | cons a segments =>
      obtain ⟨rfl, rfl⟩ := List.cons.inj hall
      obtain ⟨-, d, hx⟩ := hlast segments hends
      cases hx
  | @file k l s rest' bytes hs hshort hcreate hget hends =>
    cases segments with
    | nil =>
      rw [List.nil_append] at hall
      exact ⟨k, l, .arrived k l, hall ▸ .file hs hshort hcreate hget hends⟩
    | cons a segments =>
      obtain ⟨rfl, rfl⟩ := List.cons.inj hall
      obtain ⟨-, d, hx⟩ := hlast segments hends
      cases hx
  | @held k l s rest' target hs hshort hcreate hget hheld =>
    cases segments with
    | nil =>
      rw [List.nil_append] at hall
      exact ⟨k, l, .arrived k l, hall ▸ .held hs hshort hcreate hget hheld⟩
    | cons a segments =>
      obtain ⟨rfl, rfl⟩ := List.cons.inj hall
      obtain ⟨-, d, hx⟩ := hlast segments hheld.1
      cases hx

/-- Empty segments and dots lead nowhere else. -/
theorem Lands.of_blank {blanks : List String} (hblanks : ∀ b ∈ blanks, b = "" ∨ b = ".")
    (h : t.Lands mode k l blanks x) : x = .occupied l .directory := by
  induction h with
  | arrived k l => rfl
  | blank _ _ ih => exact ih fun b hb => hblanks b (List.mem_cons_of_mem _ hb)
  | up => exact absurd (hblanks ".." List.mem_cons_self) (by decide)
  | into hs | through hs | free hs | file hs | held hs =>
    exact absurd (hblanks _ List.mem_cons_self) (not_or.2 ⟨hs.1, hs.2.1⟩)

theorem Leads.of_blank {blanks : List String} (hblanks : ∀ b ∈ blanks, b = "" ∨ b = ".")
    (h : t.Leads k l blanks k' d) : k' = k ∧ d = l := by
  induction h with
  | arrived k l => exact ⟨rfl, rfl⟩
  | blank _ _ ih => exact ih fun b hb => hblanks b (List.mem_cons_of_mem _ hb)
  | up => exact absurd (hblanks ".." List.mem_cons_self) (by decide)
  | into hs | through hs =>
    exact absurd (hblanks _ List.mem_cons_self) (not_or.2 ⟨hs.1, hs.2.1⟩)

/-- A way to a directory can be cut anywhere. -/
theorem Leads.cut (h : t.Leads k l (segments ++ rest) k' d) :
    ∃ k₁ d₁, t.Leads k l segments k₁ d₁ ∧ t.Leads k₁ d₁ rest k' d := by
  generalize hall : segments ++ rest = all at h
  induction h generalizing segments with
  | arrived k l =>
    obtain ⟨rfl, rfl⟩ := List.append_eq_nil_iff.1 hall
    exact ⟨k, l, .arrived k l, .arrived k l⟩
  | @blank k k' l d s rest' hs h ih =>
    cases segments with
    | nil =>
      rw [List.nil_append] at hall
      exact ⟨k, l, .arrived k l, hall ▸ .blank hs h⟩
    | cons a segments =>
      obtain ⟨rfl, rfl⟩ := List.cons.inj hall
      obtain ⟨k₁, d₁, hfirst, hrest⟩ := ih rfl
      exact ⟨k₁, d₁, .blank hs hfirst, hrest⟩
  | @up k k' l d rest' h ih =>
    cases segments with
    | nil =>
      rw [List.nil_append] at hall
      exact ⟨k, l, .arrived k l, hall ▸ .up h⟩
    | cons a segments =>
      obtain ⟨rfl, rfl⟩ := List.cons.inj hall
      obtain ⟨k₁, d₁, hfirst, hrest⟩ := ih rfl
      exact ⟨k₁, d₁, .up hfirst, hrest⟩
  | @into k k' l d s rest' hs hshort hget h ih =>
    cases segments with
    | nil =>
      rw [List.nil_append] at hall
      exact ⟨k, l, .arrived k l, hall ▸ .into hs hshort hget h⟩
    | cons a segments =>
      obtain ⟨rfl, rfl⟩ := List.cons.inj hall
      obtain ⟨k₁, d₁, hfirst, hrest⟩ := ih rfl
      exact ⟨k₁, d₁, .into hs hshort hget hfirst, hrest⟩
  | @through k k' l d s rest' target hs hshort hget h ih =>
    cases segments with
    | nil =>
      rw [List.nil_append] at hall
      exact ⟨k + 1, l, .arrived _ l, hall ▸ .through hs hshort hget h⟩
    | cons a segments =>
      obtain ⟨rfl, rfl⟩ := List.cons.inj hall
      obtain ⟨k₁, d₁, hfirst, hrest⟩ := ih (List.append_assoc _ _ _)
      exact ⟨k₁, d₁, .through hs hshort hget hfirst, hrest⟩

theorem Leads.append {k₁ : Nat} {d₁ : Location} (h : t.Leads k l segments k₁ d₁)
    (hrest : t.Leads k₁ d₁ rest k' d) : t.Leads k l (segments ++ rest) k' d := by
  induction h with
  | arrived k l => exact hrest
  | blank hs _ ih => exact .blank hs (ih hrest)
  | up _ ih => exact .up (ih hrest)
  | into hs hshort hget _ ih => exact .into hs hshort hget (ih hrest)
  | through hs hshort hget _ ih =>
    have hrest' := ih hrest
    rw [List.append_assoc] at hrest'
    exact .through hs hshort hget hrest'

theorem Leads.blanks {blanks : List String} (hblanks : ∀ b ∈ blanks, b = "" ∨ b = ".") (t : Tree)
    (k : Nat) (l : Location) : t.Leads k l blanks k l := by
  induction blanks with
  | nil => exact .arrived k l
  | cons b blanks ih =>
    rw [List.forall_mem_cons] at hblanks
    exact .blank hblanks.1 (ih hblanks.2)

theorem leads_append_blank_iff {blanks : List String} (hblanks : ∀ b ∈ blanks, b = "" ∨ b = ".") :
    t.Leads k l (segments ++ blanks) k' d ↔ t.Leads k l segments k' d := by
  constructor
  · intro h
    obtain ⟨k₁, d₁, hfirst, hrest⟩ := h.cut
    obtain ⟨rfl, rfl⟩ := hrest.of_blank hblanks
    exact hfirst
  · exact fun h => h.append (.blanks hblanks t k' d)

/-- There is one way only. -/
theorem Leads.unique {k₁ k₂ : Nat} {d₁ d₂ : Location} (h : t.Leads k l segments k₁ d₁)
    (h' : t.Leads k l segments k₂ d₂) : k₁ = k₂ ∧ d₁ = d₂ := by
  have hblank : ∀ {s : String}, IsName s → ¬(s = "" ∨ s = ".") :=
    fun hs => not_or.2 ⟨hs.1, hs.2.1⟩
  induction h with
  | arrived k l =>
    cases h'
    exact ⟨rfl, rfl⟩
  | blank hs _ ih =>
    cases h' with
    | blank _ h' => exact ih h'
    | up => exact absurd hs (by decide)
    | into hs' | through hs' => exact absurd hs (hblank hs')
  | up _ ih =>
    cases h' with
    | blank hs' => exact absurd hs' (by decide)
    | up h' => exact ih h'
    | into hs' | through hs' => exact absurd rfl hs'.2.2
  | into hs _ hget _ ih =>
    cases h' with
    | blank hs' => exact absurd hs' (hblank hs)
    | up => exact absurd rfl hs.2.2
    | into _ _ _ h' => exact ih h'
    | through _ _ hget' =>
      rw [hget] at hget'
      cases hget'
  | through hs _ hget _ ih =>
    cases h' with
    | blank hs' => exact absurd hs' (hblank hs)
    | up => exact absurd rfl hs.2.2
    | into _ _ hget' =>
      rw [hget] at hget'
      cases hget'
    | through _ _ hget' h' =>
      rw [hget] at hget'
      cases hget'
      exact ih h'

theorem Leads.get? (h : t.Leads k l segments k' d) (hl : t.get? l = some .directory) :
    t.get? d = some .directory :=
  (h.lands (Or.inl rfl) (Lands.arrived k' d : t.Lands .follow k' d [] _)).holdsIn hl

/-- More links may be followed. -/
theorem Lands.mono (h : t.Lands mode k l segments x) (more : Nat) :
    t.Lands mode (k + more) l segments x := by
  induction h with
  | arrived k l => exact .arrived _ l
  | blank hs _ ih => exact .blank hs ih
  | up _ ih => exact .up ih
  | into hs hshort hcreate hget _ ih => exact .into hs hshort hcreate hget ih
  | through hs hshort hcreate hget hheld _ ih =>
    rw [Nat.add_right_comm]
    exact .through hs hshort hcreate hget hheld ih
  | free hs hshort hcreate hget hends => exact .free hs hshort hcreate hget hends
  | file hs hshort hcreate hget hends => exact .file hs hshort hcreate hget hends
  | held hs hshort hcreate hget hheld => exact .held hs hshort hcreate hget hheld

/-- Two ways along the same segments end the same, however many links each may follow. -/
theorem Lands.unique_of {k₁ k₂ : Nat} {y : Landing} (h : t.Lands mode k₁ l segments x)
    (h' : t.Lands mode k₂ l segments y) : x = y := by
  have hmore := h.mono k₂
  rw [Nat.add_comm] at hmore
  exact hmore.unique (h'.mono k₁)

theorem Leads.lands_directory (h : t.Leads k l segments k' d) :
    t.Lands .follow k l segments (.occupied d .directory) := by
  have hlands := h.lands (Or.inl rfl) (Lands.arrived k' d : t.Lands .follow k' d [] _)
  rwa [List.append_nil] at hlands

theorem Leads.directory_unique {k₁ k₁' k₂ k₂' : Nat} {d₁ d₂ : Location}
    (h : t.Leads k₁ l segments k₁' d₁) (h' : t.Leads k₂ l segments k₂' d₂) : d₁ = d₂ := by
  cases h.lands_directory.unique_of h'.lands_directory
  rfl

/-! ### The last name -/

/-- Where links are followed, none is come to. -/
theorem Lands.ne_link (hmode : mode.holds = false) {m : Location} {target : Path} :
    ¬t.Lands mode k l segments (.occupied m (.link target)) := by
  intro h
  generalize hx : Landing.occupied m (.link target) = x at h
  induction h with
  | arrived | free | file => cases hx
  | blank _ _ ih | up _ ih | into _ _ _ _ _ ih | through _ _ _ _ _ _ ih => exact ih hx
  | held _ _ _ _ hheld =>
    rw [hmode] at hheld
    cases hheld.2

/-- Nothing can be made where a path leads to something. -/
theorem Lands.exists_name_occupied {m : Location} {e : Entry}
    (h : t.Lands .follow k l segments (.occupied m e)) :
    ∃ m' e', t.Lands .name k l segments (.occupied m' e') := by
  generalize hx : Landing.occupied m e = x at h
  induction h with
  | arrived k l => exact ⟨l, .directory, .arrived k l⟩
  | blank hs _ ih =>
    obtain ⟨m', e', h⟩ := ih hx
    exact ⟨m', e', .blank hs h⟩
  | up _ ih =>
    obtain ⟨m', e', h⟩ := ih hx
    exact ⟨m', e', .up h⟩
  | into hs hshort _ hget _ ih =>
    obtain ⟨m', e', h⟩ := ih hx
    exact ⟨m', e', .into hs hshort nofun hget h⟩
  | @through k l s rest x target hs hshort _ hget _ _ ih =>
    by_cases hends : LastName.name.endsBefore rest = true
    · exact ⟨_, _, .held hs hshort nofun hget ⟨hends, rfl⟩⟩
    · obtain ⟨m', e', h⟩ := ih hx
      exact ⟨m', e', .through hs hshort nofun hget (fun hheld => hends hheld.1) h⟩
  | free => cases hx
  | held _ _ _ _ hheld => cases hheld.2
  | @file k l s rest bytes hs hshort _ hget hends =>
    have hnil : rest = [] := by simpa [LastName.endsBefore] using hends
    exact ⟨_, _, .file hs hshort nofun hget (by rw [hnil]; rfl)⟩

/-- A name that is free is the last one of its path, in the directory that the segments before it
lead to. -/
theorem Lands.of_free {front blanks : List String} {m : Location} (hs : ¬(s = "" ∨ s = "."))
    (hblanks : ∀ b ∈ blanks, b = "" ∨ b = ".")
    (h : t.Lands .name k l (front ++ s :: blanks) (.free m)) :
    IsName s ∧ ∃ k' d, t.Leads k l front k' d ∧ m = d ++ [s] ∧ t.get? m = none := by
  obtain ⟨k', d, hleads, hlands⟩ :=
    h.leads (Or.inl ⟨s, List.mem_cons_self, (not_or.1 hs).1⟩)
  have hno : ∀ {k : Nat} {l : Location}, ¬t.Lands .name k l blanks (.free m) :=
    fun hfree => nomatch hfree.of_blank hblanks
  cases hlands with
  | blank hblank => exact absurd hblank hs
  | up hrest => exact absurd hrest hno
  | into _ _ _ _ hrest => exact absurd hrest hno
  | through _ _ _ _ hheld hrest =>
    -- a link is followed before a dot only, and no name is left to be free then
    have hdot : ∃ b ∈ blanks, b ≠ "" := by
      by_contra hslashes
      have hall : ∀ b ∈ blanks, b = "" := by
        intro b hb
        by_contra hne
        exact hslashes ⟨b, hb, hne⟩
      refine hheld ⟨?_, rfl⟩
      cases blanks with
      | nil => rfl
      | cons b blanks => simpa [LastName.endsBefore, onlySlashes] using hall
    obtain ⟨_, _, _, hlast⟩ := hrest.leads (Or.inl hdot)
    exact absurd hlast hno
  | free hname _ _ hget => exact ⟨hname, k', d, hleads, rfl, hget⟩

/-- What is held and is no directory is held by its name, without a slash after it. -/
theorem Lands.exists_of_hold {m : Location} {e : Entry} (he : e ≠ .directory)
    (h : t.Lands .hold k l segments (.occupied m e)) :
    ∃ front s k' d, segments = front ++ [s] ∧ IsName s ∧ t.Leads k l front k' d ∧ m = d ++ [s] ∧
      s.utf8ByteSize ≤ maxNameBytes := by
  generalize hx : Landing.occupied m e = x at h
  induction h with
  | arrived =>
    cases hx
    exact absurd rfl he
  | free => cases hx
  | blank hs _ ih =>
    obtain ⟨front, s, k', d, rfl, hname, hleads, hm⟩ := ih hx
    exact ⟨_ :: front, s, k', d, rfl, hname, .blank hs hleads, hm⟩
  | up _ ih =>
    obtain ⟨front, s, k', d, rfl, hname, hleads, hm⟩ := ih hx
    exact ⟨_ :: front, s, k', d, rfl, hname, .up hleads, hm⟩
  | into hs hshort _ hget _ ih =>
    obtain ⟨front, s, k', d, rfl, hname, hleads, hm⟩ := ih hx
    exact ⟨_ :: front, s, k', d, rfl, hname, .into hs hshort hget hleads, hm⟩
  | @through k l a rest x target hs hshort _ hget hheld _ ih =>
    obtain ⟨front, s, k', d, hsegments, hname, hleads, hm⟩ := ih hx
    have hrest : rest ≠ [] := by
      rintro rfl
      exact hheld ⟨rfl, rfl⟩
    obtain ⟨before, last, rfl⟩ := (List.eq_nil_or_concat rest).resolve_left hrest
    rw [List.concat_eq_append, ← List.append_assoc] at hsegments
    obtain ⟨rfl, hlast⟩ := List.append_inj' hsegments rfl
    obtain rfl : last = s := List.head_eq_of_cons_eq hlast
    exact ⟨a :: before, last, k', d, by simp, hname, .through hs hshort hget hleads, hm⟩
  | @file k l s rest bytes hs hshort _ hget hends =>
    have hnil : rest = [] := by simpa [LastName.endsBefore] using hends
    cases hx
    exact ⟨[], s, k, l, by rw [hnil]; rfl, hs, .arrived k l, rfl, hshort⟩
  | @held k l s rest target hs hshort _ _ hheld =>
    have hnil : rest = [] := by simpa [LastName.endsBefore] using hheld.1
    cases hx
    exact ⟨[], s, k, l, by rw [hnil]; rfl, hs, .arrived k l, rfl, hshort⟩

/-- What is held without a slash after its name is held with any number of them allowed. -/
theorem Lands.name_of_hold {m : Location} {e : Entry} (he : e ≠ .directory)
    (hl : t.get? l = some .directory) (h : t.Lands .hold k l segments (.occupied m e)) :
    t.Lands .name k l segments (.occupied m e) := by
  have hget : t.get? m = some e := h.holdsIn hl
  obtain ⟨front, s, k', d, rfl, hname, hleads, rfl, hshort⟩ := h.exists_of_hold he
  refine hleads.lands (Or.inr ⟨s, List.mem_singleton_self s, hname.1⟩) ?_
  cases e with
  | directory => exact absurd rfl he
  | file bytes => exact .file hname hshort (by simp) hget rfl
  | link target => exact .held hname hshort (by simp) hget ⟨rfl, rfl⟩

/-- What is no link is held as it is followed. -/
theorem Lands.follow_of_hold {m : Location} {e : Entry}
    (h : t.Lands .hold k l segments (.occupied m e)) (he : ∀ target, e ≠ .link target) :
    t.Lands .follow k l segments (.occupied m e) := by
  generalize hx : Landing.occupied m e = x at h ⊢
  induction h with
  | arrived k l => exact .arrived k l
  | blank hs _ ih => exact .blank hs (ih hx)
  | up _ ih => exact .up (ih hx)
  | into hs hshort _ hget _ ih => exact .into hs hshort (by simp) hget (ih hx)
  | through hs hshort _ hget _ _ ih =>
    exact .through hs hshort (by simp) hget (by simp [LastName.holds]) (ih hx)
  | free => cases hx
  | file hs hshort _ hget hends => exact .file hs hshort (by simp) hget hends
  | held =>
    cases hx
    exact absurd rfl (he _)

/-! ### A way along names -/

/-- Names without a link among them lead straight on. -/
theorem Lands.location_eq {names : List String} (hnames : ∀ name ∈ names, IsName name)
    (hlink : ∀ more, more <+: names → more ≠ [] → more ≠ names ∨ mode.holds = false →
      ∀ target, t.get? (l ++ more) ≠ some (.link target))
    (h : t.Lands mode k l names x) : x.location = l ++ names := by
  have hend : ∀ {rest : List String}, (∀ name ∈ rest, IsName name) → mode.endsBefore rest = true →
      rest = [] := by
    intro rest hrest hends
    rw [List.eq_nil_iff_forall_not_mem]
    exact fun name hmem => (hrest name hmem).1 (LastName.eq_empty_of_endsBefore hends name hmem)
  induction names generalizing l with
  | nil =>
    cases h
    exact (List.append_nil l).symm
  | cons name rest ih =>
    rw [List.forall_mem_cons] at hnames
    cases h with
    | blank hs => exact absurd hs (not_or.2 ⟨hnames.1.1, hnames.1.2.1⟩)
    | up => exact absurd rfl hnames.1.2.2
    | into _ _ _ _ hrest =>
      rw [ih hnames.2 ?_ hrest, List.append_assoc, List.singleton_append]
      intro more hle hne hheld
      rw [List.append_assoc]
      refine hlink (name :: more) (List.cons_prefix_cons.2 ⟨rfl, hle⟩) (List.cons_ne_nil _ _) ?_
      exact hheld.imp_left fun hmore heq => hmore (List.cons.inj heq).2
    | through _ _ _ hget hheld _ =>
      refine absurd hget (hlink [name] ⟨rest, rfl⟩ (List.cons_ne_nil _ _) ?_ _)
      by_cases hrest : rest = []
      · subst hrest
        exact Or.inr (by simpa [LastName.endsBefore] using hheld)
      · exact Or.inl fun heq => hrest (List.cons.inj heq).2.symm
    | free _ _ _ _ hends | file _ _ _ _ hends =>
      rw [hend hnames.2 hends]
      rfl
    | held _ _ _ _ hheld =>
      rw [hend hnames.2 hheld.1]
      rfl

/-- What there is at some names is come to along them, unless it is a link and is followed. -/
theorem lands_of_get? (hmode : mode ≠ .create) {names : List String}
    (hnames : ∀ name ∈ names, IsName name)
    (hshort : ∀ name ∈ names, name.utf8ByteSize ≤ maxNameBytes) {e : Entry}
    (hl : t.get? l = some .directory) (he : t.get? (l ++ names) = some e)
    (hlink : mode.holds = true ∨ ∀ target, e ≠ .link target) :
    t.Lands mode k l names (.occupied (l ++ names) e) := by
  have hcreate : ∀ {rest : List String}, ¬(mode = .create ∧ onlySlashes rest = true) :=
    fun h => hmode h.1
  induction names generalizing l with
  | nil =>
    rw [List.append_nil] at he ⊢
    rw [hl] at he
    cases he
    exact .arrived k l
  | cons name rest ih =>
    rw [List.forall_mem_cons] at hnames hshort
    rw [← List.singleton_append, ← List.append_assoc] at he ⊢
    by_cases hrest : rest = []
    · subst hrest
      simp only [List.append_nil] at he ⊢
      cases e with
      | directory => exact .into hnames.1 hshort.1 hcreate he (.arrived k _)
      | file bytes => exact .file hnames.1 hshort.1 hcreate he rfl
      | link target =>
        exact .held hnames.1 hshort.1 hcreate he
          ⟨rfl, hlink.resolve_right fun hnot => hnot target rfl⟩
    · have hdir := get?_eq_directory he hrest
      exact .into hnames.1 hshort.1 hcreate hdir (ih hnames.2 hshort.2 hdir he)

end Tree

end Branding
