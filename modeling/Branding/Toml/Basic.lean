/-!
# Tables of a settings file

A settings file builds one table out of many statements: headers that open a table, and keys that
may lead through tables of their own. Each table remembers how it came about, because that
decides what may still be said about it: a table is opened by a header once, and a table that
keys have made is closed to headers.

Texts, lists and tables are kept. No setting takes a number, a truth value or a date, so of these
nothing is kept but that something stands there.

## Main definitions

* `Toml`, `Toml.Origin` — a value, and how a table came about
* `Toml.insert?` — what a key and a value say
* `Toml.opened?` — what a header says
-/

namespace Branding

/-- How a table came about. -/
inductive Toml.Origin where
  /-- By a header of its own, or by being the whole file. -/
  | header
  /-- By the header of a table inside it. -/
  | mention
  /-- By a key that leads through it. -/
  | key
  /-- In one piece, as a value. -/
  | value
  deriving DecidableEq, Repr

/-- A value of a settings file. -/
inductive Toml where
  | string (s : String)
  /-- A number, a truth value, a date or a time. -/
  | other
  | array (items : List Toml)
  | table (origin : Toml.Origin) (members : List (String × Toml))

namespace Toml

/-- The members of a table, in the order of their first appearance. -/
abbrev Members := List (String × Toml)

/-- The member of a key changed, or made where there is none yet. -/
def adjust (key : String) (change : Option Toml → Option Toml) : Members → Option Members
  | [] => (change none).map fun value => [(key, value)]
  | (k, value) :: members =>
    if k = key then (change (some value)).map fun value => (k, value) :: members
    else (adjust key change members).map ((k, value) :: ·)

/-- The table at the end of a path changed. A missing table on the way is made as `fresh`, and an
existing one is gone into where `enters` allows its origin. -/
def within (enters : Origin → Bool) (fresh : Origin)
    (change : Origin → Members → Option Members) :
    List String → Origin → Members → Option Members
  | [], origin, members => change origin members
  | key :: path, _, members =>
    adjust key
      (fun
        | none => (within enters fresh change path fresh []).map (.table fresh)
        | some (.table origin inside) =>
          if enters origin then (within enters fresh change path origin inside).map (.table origin)
          else none
        | some _ => none)
      members

/-- What a path of keys and a value say in a table. A table on the way must not have a header of
its own, and the last of them must have been made by keys. No key is given a value twice. -/
def insert? (path : List String) (key : String) (value : Toml) (origin : Origin)
    (members : Members) : Option Members :=
  within (fun o => o = .mention || o = .key) .key
    (fun o inside =>
      if path ≠ [] ∧ o ≠ .key then none
      else adjust key (fun | none => some value | some _ => none) inside)
    path origin members

/-- What a header says in the table of the whole file. The table it names must be new, or known
only from the headers of tables inside it. -/
def opened? (path : List String) (key : String) (members : Members) : Option Members :=
  within (· ≠ .value) .mention
    (fun _ inside =>
      adjust key
        (fun
          | none => some (.table .header [])
          | some (.table .mention inside) => some (.table .header inside)
          | some _ => none)
        inside)
    path .header members

/-- What a key and a value say in the table that the last header has opened. -/
def insertUnder? (header path : List String) (key : String) (value : Toml) (members : Members) :
    Option Members :=
  within (· ≠ .value) .mention (insert? path key value) header .header members

end Toml

end Branding
