import Branding.Tree.Lookup

/-!
# Walks

A walk goes through all that lies below a directory, taking the names of each directory in order
and going into a directory as soon as it comes to it. A directory is visited twice: when the
walk goes in, and when nothing is left in it. Links are visited and not followed, except that a
walk may start at one.

The entries below a location already come in the order of the visits, so a walk only has to
notice where it leaves a directory: right before the first entry that does not lie in it.

## Main definitions

* `Visit` — one stop of a walk, by the names that lead there
* `Tree.walk` — the visits of a walk from a path
* `Tree.closed?` — why a walk cannot go into a directory
-/

namespace Branding

/-- One stop of a walk, by the names that lead there from its start. -/
inductive Visit where
  /-- A directory is gone into. -/
  | enter (names : List String)
  /-- A directory has nothing left to visit. -/
  | leave (names : List String)
  | file (names : List String)
  | link (names : List String)
  deriving DecidableEq, Repr

namespace Visit

/-- The visits to entries given in the order of their locations, and the departures from the
directories that are open, innermost first. -/
def ofEntries (opened : List (List String)) : List (List String × Entry) → List Visit
  | [] => opened.map leave
  | (names, e) :: rest =>
    let around := fun (directory : List String) => directory.isPrefixOf names
    let opened' := opened.dropWhile (!around ·)
    (opened.takeWhile (!around ·)).map leave ++
      match e with
      | .directory => enter names :: ofEntries (names :: opened') rest
      | .file _ => file names :: ofEntries opened' rest
      | .link _ => link names :: ofEntries opened' rest

/-- The names of a file that is visited. -/
def file? : Visit → Option (List String)
  | .file names => some names
  | _ => none

end Visit

namespace Tree

/-- The visits of a walk from a path. A walk from a link to a directory comes to the link after
it has gone into the directory, and never leaves it. -/
def walk (t : Tree) (p : Path) : Except Refusal (List Visit) := do
  match ← t.look p with
  | (l, .directory) => return .enter [] :: Visit.ofEntries [[]] (t.below l)
  | (_, .file _) => return [.file []]
  | (_, .link _) =>
    match ← t.find p with
    | (l, .directory) => return .enter [] :: .link [] :: Visit.ofEntries [] (t.below l)
    | _ => return [.link []]

/-- Why a walk cannot go into a directory. It opens each directory by the whole path from where it
has started, which can be refused where the names of the directory alone would not be. -/
def closed? (t : Tree) (p : Path) : Option Refusal :=
  match t.find p with
  | .ok (_, .directory) => none
  | .ok _ => some .notDirectory
  | .error r => some r

end Tree

end Branding
