import Branding.Tree.Basic
import Branding.Tree.Refusal

/-!
# From paths to locations

A path is followed from the root, segment by segment, and what it leads to is either occupied or
a name still free in an existing directory. Links on the way are followed: the segments of a
link's target are put in front of those that are left. A relative path is followed from the root
too; callers join their paths to a working directory first.

Two recursions are kept apart. `Tree.proceed` goes along the segments and stops at the first
link, and `Tree.chase` restarts it behind the link, as often as links may be followed. Both are
structural, so that a path whose links run in a circle is refused after a fixed number of them.

## Main definitions

* `LastName` — what is to be done with the last name of a path
* `Tree.land` — where a path leads, or why it leads nowhere
* `Tree.find`, `Tree.look` — what is there, with or without following a last link
* `Tree.has`, `Tree.isFile`, `Tree.isDirectory` — questions that take a refusal for a no
* `Tree.readBytes`, `Tree.readText` — the content of a file
* `Tree.canonical?` — the path without links, dots or spelling

## Main results

* `Tree.get?_of_land_occupied`, `Tree.accepts_of_land_free` — a landing is true of the tree
-/

namespace Branding

/-- What is to be done with the last name of a path. -/
inductive LastName where
  /-- A link is followed. -/
  | follow
  /-- A link is taken for itself. -/
  | hold
  /-- A link is taken for itself, also where slashes follow the name. -/
  | name
  /-- A link is followed, and the name must be able to be a file's: no slash may come after it. -/
  | create
  deriving DecidableEq, Repr

/-- Nothing but slashes follow a name. -/
def onlySlashes (rest : List String) : Bool := rest != [] && rest.all (· == "")

namespace LastName

/-- Whether a name with these segments after it is the last one. -/
def endsBefore (mode : LastName) (rest : List String) : Bool :=
  rest.isEmpty || mode == .name && onlySlashes rest

/-- Whether a link is taken for itself. -/
def holds (mode : LastName) : Bool := mode == .hold || mode == .name

end LastName

/-- Where a path leads. -/
inductive Landing where
  /-- To an entry. -/
  | occupied (l : Location) (e : Entry)
  /-- To a name that is free, in a directory that exists. -/
  | free (l : Location)
  deriving DecidableEq

namespace Landing

/-- What a landing says about the tree. -/
def HoldsIn (t : Tree) : Landing → Prop
  | .occupied l e => t.get? l = some e
  | .free l => t.get? l = none ∧ t.accepts l = true

/-- The entry a landing found, which must be there. -/
def occupied? : Landing → Except Refusal (Location × Entry)
  | .occupied l e => .ok (l, e)
  | .free _ => .error .absent

end Landing

namespace Tree

/-- A name may have this many bytes. -/
def maxNameBytes : Nat := 255

/-- A path must have fewer bytes than this. -/
def pathBytesBound : Nat := 4096

/-- This many links are followed on one way. -/
def maxLinks : Nat := 40

/-- Where a way stops: at its end, or at a link in the directory at `l`, with segments left. -/
inductive Stop where
  | arrival (landing : Landing)
  | link (l : Location) (target : Path) (rest : List String)
  deriving DecidableEq

/-- The way along the segments from the directory at `l`, up to its end or to the first link that
has to be followed. -/
def proceed (t : Tree) (mode : LastName) : Location → List String → Except Refusal Stop
  | l, [] => .ok (.arrival (.occupied l .directory))
  | l, s :: rest =>
    if s = "" ∨ s = "." then proceed t mode l rest
    else if s = ".." then proceed t mode l.dropLast rest
    else if mode = .create ∧ onlySlashes rest then .error .isDirectory
    else if maxNameBytes < s.utf8ByteSize then .error .nameTooLong
    else
      match t.get? (l ++ [s]) with
      | none => if mode.endsBefore rest then .ok (.arrival (.free (l ++ [s]))) else .error .absent
      | some .directory => proceed t mode (l ++ [s]) rest
      | some (.file bytes) =>
        if mode.endsBefore rest then .ok (.arrival (.occupied (l ++ [s]) (.file bytes)))
        else .error .notDirectory
      | some (.link target) =>
        if mode.endsBefore rest ∧ mode.holds then
          .ok (.arrival (.occupied (l ++ [s]) (.link target)))
        else .ok (.link l target rest)

/-- The way along the segments from the directory at `l`, following as many links. -/
def chase (t : Tree) (mode : LastName) : Nat → Location → List String → Except Refusal Landing
  | links, l, segments =>
    match t.proceed mode l segments with
    | .error r => .error r
    | .ok (.arrival landing) => .ok landing
    | .ok (.link l target rest) =>
      match links with
      | 0 => .error .tooManyLinks
      | links + 1 => chase t mode links (if target.rooted then [] else l) (target.segments ++ rest)

/-- Where a path leads. -/
def land (t : Tree) (mode : LastName) (p : Path) : Except Refusal Landing :=
  if p.text.toList.contains '\x00' then .error .nulInPath
  else if p.text = "" then .error .absent
  else if pathBytesBound ≤ p.text.utf8ByteSize then .error .nameTooLong
  else t.chase mode maxLinks [] p.segments

/-! ### A landing is true of the tree -/

theorem isDirectoryAt_dropLast {t : Tree} {l : Location} (h : t.isDirectoryAt l = true) :
    t.isDirectoryAt l.dropLast = true := by
  rcases List.eq_nil_or_concat l with rfl | ⟨front, name, rfl⟩
  · exact h
  · rw [List.concat_eq_append, isDirectoryAt_iff] at h
    simpa using isDirectoryAt_of_get? h

/-- What a stop says about the tree. -/
def Stop.HoldsIn (t : Tree) : Stop → Prop
  | .arrival landing => landing.HoldsIn t
  | .link l _ _ => t.isDirectoryAt l = true

theorem proceed_holdsIn {t : Tree} {mode : LastName} {l : Location} {segments : List String}
    (hl : t.isDirectoryAt l = true) {stop : Stop} (h : t.proceed mode l segments = .ok stop) :
    stop.HoldsIn t := by
  induction segments generalizing l with
  | nil =>
    cases h
    exact isDirectoryAt_iff.1 hl
  | cons s rest ih =>
    unfold proceed at h
    split at h
    · exact ih hl h
    split at h
    · exact ih (isDirectoryAt_dropLast hl) h
    split at h
    · cases h
    split at h
    · cases h
    split at h
    next hnone =>
      split at h
      · cases h
        have hfree : t.isDirectoryAt (l ++ [s]) = false := by simp [isDirectoryAt, hnone]
        exact ⟨hnone, by simp [accepts, hl, hfree]⟩
      · cases h
    next hdir => exact ih (isDirectoryAt_iff.2 hdir) h
    next bytes hfile =>
      split at h
      · cases h
        exact hfile
      · cases h
    next target hlink =>
      split at h
      · cases h
        exact hlink
      · cases h
        exact hl

theorem chase_holdsIn {t : Tree} {mode : LastName} {links : Nat} {l : Location}
    {segments : List String} (hl : t.isDirectoryAt l = true) {landing : Landing}
    (h : t.chase mode links l segments = .ok landing) : landing.HoldsIn t := by
  induction links generalizing l segments with
  | zero =>
    unfold chase at h
    split at h
    · cases h
    next hp =>
      cases h
      exact proceed_holdsIn hl hp
    · cases h
  | succ links ih =>
    unfold chase at h
    split at h
    · cases h
    next hp =>
      cases h
      exact proceed_holdsIn hl hp
    next hp =>
      refine ih ?_ h
      split
      · simp
      · exact proceed_holdsIn hl hp

theorem land_holdsIn {t : Tree} {mode : LastName} {p : Path} {landing : Landing}
    (h : t.land mode p = .ok landing) : landing.HoldsIn t := by
  unfold land at h
  split at h
  · cases h
  split at h
  · cases h
  split at h
  · cases h
  exact chase_holdsIn (by simp) h

/-- What a path leads to is in the tree. -/
theorem get?_of_land_occupied {t : Tree} {mode : LastName} {p : Path} {l : Location} {e : Entry}
    (h : t.land mode p = .ok (.occupied l e)) : t.get? l = some e :=
  land_holdsIn h

/-- A free name that a path leads to can take an entry. -/
theorem accepts_of_land_free {t : Tree} {mode : LastName} {p : Path} {l : Location}
    (h : t.land mode p = .ok (.free l)) : t.get? l = none ∧ t.accepts l = true :=
  land_holdsIn h

/-! ### Questions -/

/-- What is at the end of a path, links followed. -/
def find (t : Tree) (p : Path) : Except Refusal (Location × Entry) := do
  Landing.occupied? (← t.land .follow p)

/-- What is at the end of a path, where a link counts as itself. -/
def look (t : Tree) (p : Path) : Except Refusal (Location × Entry) := do
  Landing.occupied? (← t.land .hold p)

/-- Whether a path leads to anything. -/
def has (t : Tree) (p : Path) : Bool := (t.find p).toBool

/-- Whether a path leads to a file. -/
def isFile (t : Tree) (p : Path) : Bool :=
  match t.find p with
  | .ok (_, .file _) => true
  | _ => false

/-- Whether a path leads to a directory. -/
def isDirectory (t : Tree) (p : Path) : Bool :=
  match t.find p with
  | .ok (_, .directory) => true
  | _ => false

/-- The bytes of the file a path leads to. -/
def readBytes (t : Tree) (p : Path) : Except Refusal ByteArray := do
  match (← t.find p).2 with
  | .file bytes => .ok bytes
  | .directory => .error .isDirectory
  | .link _ => .error .invalid

/-- The text of the file a path leads to. -/
def readText (t : Tree) (p : Path) : Except Refusal String := do
  match String.fromUTF8? (← t.readBytes p) with
  | some text => .ok text
  | none => .error .notText

/-- The one path without links, dots or spelling that leads to the same entry. -/
def canonical? (t : Tree) (p : Path) : Option Path :=
  match t.find p with
  | .ok (l, _) => some (.ofNames true l)
  | .error _ => none

end Tree

end Branding
