/-!
# Paths as they are written

A path is kept as it was written, because messages show it that way and because the system reads
it that way: `a/`, `a/.` and `a` are three paths, and only the last may name a plain file. What
two spellings have in common is their list of components, in which empty segments and inner dots
do not count. Paths are compared by components and shown as text.

A path is UTF-8 text, and so is every name in it. A system that allows names of other bytes is seen
here only as far as its names are text.

## Main definitions

* `Path`, `Path.ofString`, `Path.text` — a path cut at its slashes, and back
* `Path.components` — what a path says, spelling aside
* `Path.join` — a path followed from another
* `Path.enclosing`, `Path.parent?` — the directories a path lies in, by its text alone
* `Path.fileName?`, `Path.stem?`, `Path.extension?`, `Path.withExtension` — the last name
* `Path.normalize` — dots and parents resolved by the text alone
* `Path.relativeTo?` — the way from one path to another
-/

namespace Branding

/-- A path cut at its slashes. A rooted path begins with a slash, which is not among the
separators of its segments. The empty path has one empty segment. -/
structure Path where
  rooted : Bool
  segments : List String
  deriving DecidableEq, Repr

/-- What one counted segment of a path says. -/
inductive Component where
  | root
  | here
  | up
  | name (s : String)
  deriving DecidableEq, Repr

namespace Component

/-- What a segment says, if it counts. A dot counts only at the head of a relative path, which
`Path.components` sees to. -/
def ofSegment? (s : String) : Option Component :=
  if s = "" ∨ s = "." then none else if s = ".." then some .up else some (.name s)

def text : Component → String
  | .root => "/"
  | .here => "."
  | .up => ".."
  | .name s => s

end Component

namespace Path

/-! ### Text -/

/-- A text cut at its slashes. -/
def split (text : List Char) : List String := (text.splitOn '/').map String.ofList

/-- The path a text writes. -/
def ofString (s : String) : Path :=
  match s.toList with
  | '/' :: rest => ⟨true, split rest⟩
  | chars => ⟨false, split chars⟩

/-- The text of a path. -/
def text (p : Path) : String := (if p.rooted then "/" else "") ++ "/".intercalate p.segments

/-- The empty path, or the root of the tree. -/
def start (rooted : Bool) : Path := ⟨rooted, [""]⟩

/-- A path that consists of names. -/
def ofNames (rooted : Bool) (names : List String) : Path :=
  ⟨rooted, if names.isEmpty then [""] else names⟩

/-! ### Components -/

/-- What a path says, spelling aside. -/
def components (p : Path) : List Component :=
  (if p.rooted then [.root] else if p.segments.head? = some "." then [.here] else []) ++
    p.segments.filterMap Component.ofSegment?

/-- Two paths say the same. -/
def agrees (p q : Path) : Bool := p.components == q.components

/-- The first path lies at or below the second. -/
def isWithin (p q : Path) : Bool := q.components.isPrefixOf p.components

/-- The components with slashes between them. The root has a slash of its own. -/
def display (p : Path) : String := "/".intercalate (p.components.map Component.text)

/-! ### Joining -/

/-- The second path followed from the first: a rooted path replaces it, and one slash is put
between the two unless it is there. -/
def join (p q : Path) : Path :=
  if q.rooted then q
  else if p.segments.getLast? = some "" then ⟨p.rooted, p.segments.dropLast ++ q.segments⟩
  else ⟨p.rooted, p.segments ++ q.segments⟩

/-- A path and one more name below it. -/
def child (p : Path) (name : String) : Path := p.join ⟨false, [name]⟩

/-- A path and names below it, one inside the other. -/
def descend (p : Path) (names : List String) : Path := names.foldl child p

/-- The path that a list of components spells out. -/
def ofComponents (cs : List Component) : Path :=
  cs.foldl (fun p c => p.join (ofString c.text)) (start false)

/-! ### The directories around a path -/

/-- Whether a segment counts, given the segments before it, last first. -/
def counts (rooted : Bool) (s : String) (before : List String) : Bool :=
  if s = "" then false else if s = "." then !rooted && before.isEmpty else true

/-- The initial parts of a path that end in a counted segment, longest first. The argument and
the parts are given last segment first. -/
def stems (rooted : Bool) : List String → List (List String)
  | [] => []
  | s :: before =>
    if counts rooted s before then (s :: before) :: stems rooted before else stems rooted before

/-- The directories a path lies in by its text alone, nearest first, down to the start. -/
def enclosing (p : Path) : List Path :=
  match stems p.rooted p.segments.reverse with
  | [] => []
  | _ :: outer => outer.map (fun segments => ⟨p.rooted, segments.reverse⟩) ++ [start p.rooted]

/-- The nearest directory a path lies in. -/
def parent? (p : Path) : Option Path := p.enclosing.head?

/-! ### The last name -/

/-- The last component, if it is a name. -/
def fileName? (p : Path) : Option String :=
  match p.components.getLast? with
  | some (.name s) => some s
  | _ => none

/-- A name cut at its last dot. A dot that leads the name is part of it. -/
def splitName (name : String) : String × Option String :=
  let reversed := name.toList.reverse
  match reversed.dropWhile (· != '.') with
  | _ :: c :: stem =>
    (String.ofList (c :: stem).reverse,
      some (String.ofList (reversed.takeWhile (· != '.')).reverse))
  | _ => (name, none)

/-- The last name without its extension. -/
def stem? (p : Path) : Option String := p.fileName?.map fun name => (splitName name).1

/-- The extension of the last name. -/
def extension? (p : Path) : Option String := p.fileName?.bind fun name => (splitName name).2

/-- The path cut right after the stem of its last name, and the extension put there. A path
without a last name is left alone. -/
def withExtension (p : Path) (extension : String) : Path :=
  match p.stem?, stems p.rooted p.segments.reverse with
  | some stem, (_ :: before) :: _ => ⟨p.rooted, before.reverse ++ [stem ++ "." ++ extension]⟩
  | _, _ => p

/-! ### Resolution by text -/

/-- The names after one more component: a dot changes nothing, and a parent takes back the last
name, if there is one. -/
def stepNormal (names : List String) : Component → List String
  | .root | .here => names
  | .up => names.dropLast
  | .name s => names ++ [s]

/-- The names left when dots are dropped and every parent takes back the name before it. -/
def normalNames (cs : List Component) : List String := cs.foldl stepNormal []

/-- A path with dots and parents resolved by the text alone, links aside. -/
def normalize (p : Path) : Path := ofNames p.rooted (normalNames p.components)

/-- The components of the way from `base` to `path`: what they share is skipped, each component
of the base that is left is stepped out of, and what is left of the path follows. There is no
way out of a base that itself steps up. -/
def wayFrom? : (entered : Bool) → (path base : List Component) → Option (List Component)
  | _, [], [] => some []
  | _, a :: path, [] => some (a :: path)
  | _, [], _ :: base => (wayFrom? true [] base).map (.up :: ·)
  | entered, a :: path, b :: base =>
    if !entered && a == b then wayFrom? false path base
    else if b == .here then (wayFrom? true path base).map (a :: ·)
    else if b == .up then none
    else some (.up :: base.map (fun _ => .up) ++ a :: path)

/-- The way from one path to another, by the text alone. -/
def relativeTo? (p base : Path) : Option Path :=
  if p.rooted = base.rooted then (wayFrom? false p.components base.components).map ofComponents
  else if p.rooted then some p
  else none

end Path

end Branding
