import Branding.Brand
import Branding.Manifest
import Branding.Source.Basic
import Branding.Source.Declaration
import Branding.Tree.Lookup

/-!
# Which file a loader finds for a name

The generated loader strips the namespace from a class name, turns the separators of the rest into
slashes and adds the extension. The same is done here, so that a build can be checked: a file
that declares a namespace has to be what the loader finds for the name that the namespace and the
file's own name make.

## Main definitions

* `Resolver`, `Resolver.resolve?` — the file for a name, by one loader
* `resolveFirst?` — by the first of several loaders that finds one
* `unresolvable` — the files of a run that the loader would not find
-/

namespace Branding

/-- A loader: the namespace it serves, and the directory it serves it from. -/
structure Resolver where
  namespaceName : String
  root : Path
  deriving DecidableEq, Repr

/-- A text cut at its separators. -/
def splitSeparators (text : List Char) : List String :=
  (text.splitOn separator).map String.ofList

namespace Resolver

/-- What is left of a name behind the namespace and a separator. -/
def rest? (resolver : Resolver) (qualified : String) : Option (List Char) := do
  let rest ← afterWord? resolver.namespaceName.toList qualified.toList
  let rest ← afterWord? [separator] rest
  if rest.isEmpty then none else some rest

/-- The path a loader builds for what is left of a name: each part followed from the one before,
and the extension in the place of the last part's own. -/
def candidate (resolver : Resolver) (rest : List Char) : Path :=
  ((splitSeparators rest).foldl (fun p part => p.join (.ofString part)) resolver.root).withExtension
    sourceExtension

/-- The file a loader finds for a name. -/
def resolve? (t : Tree) (resolver : Resolver) (qualified : String) : Option Path := do
  let candidate := resolver.candidate (← resolver.rest? qualified)
  if t.isFile candidate then some candidate else none

end Resolver

/-- The file that the first of several loaders finds for a name. -/
def resolveFirst? (t : Tree) (resolvers : List Resolver) (qualified : String) : Option Path :=
  resolvers.findSome? fun resolver => resolver.resolve? t qualified

/-- Whether a loader would not find a file at a path from its root. A file that cannot be read is
not found; one that declares nothing is not looked for. -/
def isUnresolvable (t : Tree) (resolver : Resolver) (relative : Path) : Bool :=
  let file := resolver.root.join relative
  match t.readText file with
  | .error _ => true
  | .ok text =>
    match declaredNamespace? text.toList, relative.stem? with
    | none, _ => false
    | some _, none => true
    | some declared, some stem =>
      let qualified := String.ofList declared ++ String.singleton separator ++ stem
      !(resolver.resolve? t qualified).any (·.agrees file)

/-- The files of a run, loader and entry helper aside, that the loader of a namespace would not
find below a root. -/
def unresolvable (t : Tree) (resolver : Resolver) (m : Manifest) : List Path :=
  ((m.ofRole .normal).map (·.path)).filter (isUnresolvable t resolver)

end Branding
