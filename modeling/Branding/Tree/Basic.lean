import Branding.Path
import Std.Data.ExtTreeMap

/-!
# Trees of files

A tree maps locations to entries. A *location* is the list of names from the root down, so it is
what a path names once links, dots and spelling are out of the way, and each entry has exactly
one. Two trees with the same entries are equal, and the entries come in the order of their
locations, compared name by name, which is also the order of a walk that takes the names of each
directory in turn and enters a directory as soon as it is met.

There are directories, files and symbolic links. Hard links, files of other kinds and permissions
are outside the model, and so are names that are not UTF-8 text: each location has bytes of its own,
and nothing is refused for want of a right.

A tree has no orphans: above every entry are directories all the way to the root, which is
itself not among the entries. `Tree.put` and `Tree.drop` keep that by refusing to act where they
would break it. Whoever wants to know why something was refused asks through the paths of
`Branding.Tree.Edit`; here nothing needs a reason.

## Main definitions

* `Location`, `Entry`, `Tree`
* `Tree.get?` — what is at a location
* `Tree.put`, `Tree.drop` — one entry put in place or taken away
* `Tree.below` — all there is below a location, in order

## Main results

* `Tree.ext_get?` — a tree is what its locations hold
* `Tree.get?_put`, `Tree.get?_drop` — every other location is left alone
-/

namespace Branding

/-- The names from the root down to an entry. -/
abbrev Location := List String

/-- What a location can hold. -/
inductive Entry where
  | directory
  | file (bytes : ByteArray)
  | link (target : Path)

/-- Two entries are compared by kind, and then by what they hold. -/
instance : DecidableEq Entry
  | .directory, .directory => isTrue rfl
  | .file a, .file b =>
    match ByteArray.instDecidableEq a b with
    | isTrue h => isTrue (congrArg Entry.file h)
    | isFalse h => isFalse fun e => h (Entry.file.inj e)
  | .link p, .link q =>
    if h : p = q then isTrue (congrArg Entry.link h) else isFalse fun e => h (Entry.link.inj e)
  | .directory, .file _ | .directory, .link _ | .file _, .directory | .file _, .link _
  | .link _, .directory | .link _, .file _ => isFalse nofun

/-- Whether an entry is a directory. -/
def Entry.isDirectory : Entry → Bool
  | .directory => true
  | _ => false

@[simp] theorem Entry.isDirectory_iff {e : Entry} : e.isDirectory = true ↔ e = .directory := by
  cases e <;> simp [Entry.isDirectory]

/-- A tree of files. The root is a directory and has no entry of its own; every other entry has
a directory right above it. -/
structure Tree where
  entries : Std.ExtTreeMap Location Entry
  root_not_mem : [] ∉ entries
  closed : ∀ (l : Location) (name : String),
    l ++ [name] ∈ entries → l = [] ∨ entries[l]? = some .directory

namespace Tree

/-- The tree that holds nothing but its root. -/
def empty : Tree where
  entries := ∅
  root_not_mem := by simp
  closed := by simp

instance : EmptyCollection Tree := ⟨empty⟩

instance : Inhabited Tree := ⟨∅⟩

/-- What is at a location. -/
def get? (t : Tree) (l : Location) : Option Entry :=
  if l = [] then some .directory else t.entries[l]?

/-- Whether a location holds a directory. -/
def isDirectoryAt (t : Tree) (l : Location) : Bool := (t.get? l).any Entry.isDirectory

@[simp] theorem get?_nil (t : Tree) : t.get? [] = some .directory := rfl

@[simp] theorem isDirectoryAt_iff {t : Tree} {l : Location} :
    t.isDirectoryAt l = true ↔ t.get? l = some .directory := by
  cases h : t.get? l <;> simp [isDirectoryAt, h]

/-- A tree is what its locations hold. -/
theorem ext_get? {t u : Tree} (h : ∀ l, t.get? l = u.get? l) : t = u := by
  obtain ⟨te, tr, tc⟩ := t
  obtain ⟨ue, ur, uc⟩ := u
  have key : te = ue := by
    apply Std.ExtTreeMap.ext_getElem?
    intro l
    by_cases hl : l = []
    · subst hl
      rw [Std.ExtTreeMap.getElem?_eq_none tr, Std.ExtTreeMap.getElem?_eq_none ur]
    · simpa [get?, hl] using h l
  subst key
  rfl

/-- Whatever has an entry lies in a directory. -/
theorem isDirectoryAt_of_get? {t : Tree} {l : Location} {name : String} {e : Entry}
    (h : t.get? (l ++ [name]) = some e) : t.isDirectoryAt l = true := by
  have hmem : l ++ [name] ∈ t.entries := by
    rw [Std.ExtTreeMap.mem_iff_isSome_getElem?]
    simp only [get?, List.append_eq_nil_iff, List.cons_ne_self, and_false, if_false] at h
    simp [h]
  rw [isDirectoryAt_iff]
  rcases t.closed l name hmem with rfl | hdir
  · rfl
  · unfold get?
    split
    · rfl
    · exact hdir

/-! ### One entry put in place -/

/-- A location that can take any entry: its directory is there, and it is not itself a directory,
which may hold something. -/
def accepts (t : Tree) (l : Location) : Bool :=
  l != [] && t.isDirectoryAt l.dropLast && !t.isDirectoryAt l

/-- An entry put in place of what was at a location, where the location accepts it. -/
def put (t : Tree) (l : Location) (e : Entry) : Tree :=
  if h : t.accepts l = true then
    { entries := t.entries.insert l e
      root_not_mem := by
        simp only [accepts, Bool.and_eq_true, bne_iff_ne] at h
        simp [Std.ExtTreeMap.mem_insert, t.root_not_mem, h.1.1]
      closed := by
        intro m name hm
        simp only [accepts, Bool.and_eq_true, bne_iff_ne, isDirectoryAt_iff,
          Bool.not_eq_true', Bool.eq_false_iff, ne_eq] at h
        obtain ⟨⟨hl, hdir⟩, hnot⟩ := h
        rw [Std.ExtTreeMap.mem_insert] at hm
        have key : m = [] ∨ t.entries[m]? = some .directory := by
          rcases hm with heq | hmem
          · have : l = m ++ [name] := by simpa using heq
            subst this
            by_cases hm0 : m = []
            · exact Or.inl hm0
            · right
              simpa [get?, hm0] using hdir
          · exact t.closed m name hmem
        rcases key with hm0 | hdir'
        · exact Or.inl hm0
        · right
          rw [Std.ExtTreeMap.getElem?_insert]
          split
          next heq =>
            have : l = m := by simpa using heq
            subst this
            exact absurd (by simpa [get?, hl] using hdir') hnot
          next => exact hdir' }
  else t

theorem get?_put (t : Tree) (l m : Location) (e : Entry) :
    (t.put l e).get? m = if t.accepts l = true ∧ l = m then some e else t.get? m := by
  unfold put
  split
  next h =>
    have hl : l ≠ [] := by
      simp only [accepts, Bool.and_eq_true, bne_iff_ne] at h
      exact h.1.1
    by_cases hlm : l = m
    · subst hlm
      simp [get?, hl, h]
    · simp only [get?, Std.ExtTreeMap.getElem?_insert, h, hlm, and_false, if_false]
      split
      · rfl
      · simp [hlm]
  next h => simp [h]

@[simp] theorem get?_put_of_ne {t : Tree} {l m : Location} (e : Entry) (h : l ≠ m) :
    (t.put l e).get? m = t.get? m := by
  simp [get?_put, h]

/-! ### One entry taken away -/

/-- The names in a directory, in order. -/
def names (t : Tree) (l : Location) : List String :=
  t.entries.keys.filterMap fun m => if m.dropLast = l then m.getLast? else none

theorem mem_names {t : Tree} {l : Location} {name : String} :
    name ∈ t.names l ↔ l ++ [name] ∈ t.entries := by
  simp only [names, List.mem_filterMap, Std.ExtTreeMap.mem_keys]
  constructor
  · rintro ⟨m, hm, h⟩
    split at h
    next heq =>
      obtain ⟨front, rfl⟩ := List.getLast?_eq_some_iff.1 h
      rw [List.dropLast_concat] at heq
      rwa [← heq]
    next => simp at h
  · intro h
    exact ⟨_, h, by simp⟩

/-- What is at a location taken away. A directory that holds something stays. -/
def drop (t : Tree) (l : Location) : Tree :=
  if h : t.names l = [] then
    { entries := t.entries.erase l
      root_not_mem := by
        simp [Std.ExtTreeMap.mem_erase, t.root_not_mem]
      closed := by
        intro m name hm
        rw [Std.ExtTreeMap.mem_erase] at hm
        rcases t.closed m name hm.2 with hm0 | hdir
        · exact Or.inl hm0
        · right
          rw [Std.ExtTreeMap.getElem?_erase]
          split
          next heq =>
            have : l = m := by simpa using heq
            subst this
            have := mem_names.2 hm.2
            simp [h] at this
          next => exact hdir }
  else t

theorem get?_drop (t : Tree) (l m : Location) :
    (t.drop l).get? m =
      if t.names l = [] ∧ l ≠ [] ∧ l = m then none else t.get? m := by
  unfold drop
  split
  next h =>
    by_cases hlm : l = m
    · subst hlm
      by_cases hl : l = []
      · subst hl
        simp
      · simp [get?, hl, h]
    · simp only [get?, Std.ExtTreeMap.getElem?_erase, h, hlm, and_false, if_false]
      split
      · rfl
      · simp [hlm]
  next h => simp [h]

@[simp] theorem get?_drop_of_ne {t : Tree} {l m : Location} (h : l ≠ m) :
    (t.drop l).get? m = t.get? m := by
  simp [get?_drop, h]

/-! ### All there is below a location -/

/-- The names that lead from one location down to another. -/
def namesFrom? : (above l : Location) → Option (List String)
  | [], l => some l
  | _ :: _, [] => none
  | a :: above, b :: l => if a = b then namesFrom? above l else none

theorem namesFrom?_eq_some_iff {above l : Location} {names : List String} :
    namesFrom? above l = some names ↔ l = above ++ names := by
  induction above generalizing l with
  | nil => simp [namesFrom?]
  | cons a above ih =>
    cases l with
    | nil => simp [namesFrom?]
    | cons b l =>
      by_cases h : a = b
      · simp [namesFrom?, h, ih]
      · simp [namesFrom?, h, eq_comm]

/-- What lies strictly below a location: the names that lead there, and the entry, in the order
of the locations. -/
def below (t : Tree) (l : Location) : List (List String × Entry) :=
  t.entries.toList.filterMap fun (m, e) =>
    (namesFrom? l m).bind fun names => if names = [] then none else some (names, e)

theorem mem_below {t : Tree} {l : Location} {names : List String} {e : Entry} :
    (names, e) ∈ t.below l ↔ names ≠ [] ∧ t.get? (l ++ names) = some e := by
  simp only [below, List.mem_filterMap, Prod.exists, Std.ExtTreeMap.mem_toList_iff_getElem?_eq_some,
    Option.bind_eq_some_iff, namesFrom?_eq_some_iff]
  constructor
  · rintro ⟨m, e', h, names', rfl, hn⟩
    split at hn
    · simp at hn
    · simp only [Option.some.injEq, Prod.mk.injEq] at hn
      obtain ⟨rfl, rfl⟩ := hn
      simp_all [get?]
  · rintro ⟨hne, h⟩
    refine ⟨l ++ names, e, ?_, names, rfl, by simp [hne]⟩
    simpa [get?, hne] using h

end Tree

end Branding
