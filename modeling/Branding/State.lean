import Branding.Brand
import Branding.Files.Basic
import Branding.Json.Parser
import Branding.Json.Printer

/-!
# What is remembered between runs

The state file holds one JSON object. Only the brand of the last run is ours; other programs may
keep members there too, and they stay where they are. The file is never an error: one that is
missing, or holds no object, counts as empty, and the next brand that is remembered replaces it.

## Main definitions

* `State.load`, `State.save` — the remembered members, and more of them
* `State.brand?`, `State.remember` — the remembered brand
* `Resolution`, `State.resolve` — the brand of a run: the one that is asked for, or else the one
  that is remembered
-/

namespace Branding

/-- Where the brand of a run comes from. -/
inductive BrandOrigin where
  /-- It was asked for. -/
  | explicit
  /-- It was remembered. -/
  | persisted
  deriving DecidableEq, Repr

/-- The brand of a run. -/
structure Resolution where
  brand : Brand
  origin : BrandOrigin
  /-- Whether it was written to the state file just now. -/
  saved : Bool
  deriving DecidableEq

namespace State

/-- The key of the brand. -/
def brandKey : String := "prefix"

/-- The members that a text gives: none, unless it is an object. -/
def membersOf (text : String) : Json.Members :=
  match Json.parse? text with
  | some (.object members) => members
  | _ => []

/-- The members that a state file gives. -/
def load (t : Tree) (file : Path) : Json.Members :=
  match t.readText file with
  | .ok text => membersOf text
  | .error _ => []

/-- Members put among those of a state file. -/
def save (file : Path) (extra : Json.Members) : Files Unit := do
  let members := (load (← get) file).merge extra
  Files.writeText file ((Json.object members).indented ++ "\n")

/-- The remembered brand, as it is written. -/
def brand? (t : Tree) (file : Path) : Option String :=
  match (load t file).get? brandKey with
  | some (.string raw) => if raw = "" then none else some raw
  | _ => none

/-- A brand remembered. -/
def remember (file : Path) (brand : Brand) : Files Unit :=
  save file [(brandKey, .string brand.name)]

/-- The brand a text spells, which must be an identifier. -/
def brandOf (raw : String) : Files Brand :=
  match Brand.ofString? raw with
  | some brand => pure brand
  | none => Files.fail (.badBrand raw)

/-- The brand of a run. One that is asked for can be remembered at once. -/
def resolve (explicit : Option String) (file : Path) (persist : Bool) : Files Resolution := do
  match explicit with
  | some raw => do
    let brand ← brandOf raw
    if persist then remember file brand
    return ⟨brand, .explicit, persist⟩
  | none =>
    match brand? (← get) file with
    | some raw => return ⟨← brandOf raw, .persisted, false⟩
    | none => Files.fail .noBrand

end State

end Branding
