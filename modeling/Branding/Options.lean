import Branding.Fault

/-!
# Options

The tokens after a command are read from left to right. A long token is a key, and its value
follows an equals sign or is the next token, unless that is long itself; a key without a value is
a flag. A short token is one letter and always a flag. Everything else is passed over, and of two
options with one key the later counts.

A long key takes the next token for its value even where that looks like a short flag.

## Main definitions

* `Token`, `Token.ofString` — what one token can be, by itself
* `Options`, `Options.parse` — the options that tokens give
* `Options.get?`, `Options.has` — what was given for a key
* `Options.value?` — the value given for a key that must have one

## Main results

* `Options.get?_append` — of two options with one key the later counts
-/

namespace Branding

/-- What a token is by itself. -/
inductive Token where
  /-- A key with its value. -/
  | assignment (key value : String)
  /-- A key whose value may follow. -/
  | key (key : String)
  /-- A long token without a key. -/
  | keyless
  /-- A single letter. -/
  | letter (c : Char)
  | other
  deriving DecidableEq, Repr

namespace Token

/-- What follows two dashes. -/
def ofLong (long : List Char) : Token :=
  match long with
  | [] | '=' :: _ => .keyless
  | long =>
    match long.dropWhile (· != '=') with
    | _ :: value => .assignment (.ofList (long.takeWhile (· != '='))) (.ofList value)
    | [] => .key (.ofList long)

/-- What a text is as a token. -/
def ofString (s : String) : Token :=
  match s.toList with
  | '-' :: '-' :: long => ofLong long
  | ['-', c] => if c.isAlpha then .letter c else .other
  | _ => .other

/-- A long token cannot be the value of the key before it. -/
def isLong : Token → Bool
  | .assignment _ _ | .key _ | .keyless => true
  | .letter _ | .other => false

end Token

/-- What was given for a key. -/
inductive OptionValue where
  | flag
  | value (s : String)
  deriving DecidableEq, Repr

/-- Keys and what was given for them, in the order of the tokens. -/
abbrev Options := List (String × OptionValue)

namespace Options

/-- A key that no value follows is a flag. -/
def ofPending : Option String → Options
  | some key => [(key, .flag)]
  | none => []

/-- The options that tokens give after a key that waits for its value, or after none. -/
def read : (pending : Option String) → List String → Options
  | pending, [] => ofPending pending
  | pending, s :: rest =>
    match pending, Token.ofString s with
    | some key, .letter _ | some key, .other => (key, .value s) :: read none rest
    | pending, .assignment key value => ofPending pending ++ (key, .value value) :: read none rest
    | pending, .key key => ofPending pending ++ read (some key) rest
    | pending, .letter c => ofPending pending ++ (String.singleton c, .flag) :: read none rest
    | pending, .keyless | pending, .other => ofPending pending ++ read none rest

/-- The options that tokens give. -/
def parse (tokens : List String) : Options := read none tokens

/-- What was given for a key, at last. -/
def get? (options : Options) (key : String) : Option OptionValue := options.reverse.lookup key

/-- Of two options with one key the later counts. -/
theorem get?_append (earlier later : Options) (key : String) :
    get? (earlier ++ later) key = (later.get? key).or (earlier.get? key) := by
  simp [get?, List.lookup_append]

/-- Whether a key was given in any form. -/
def has (options : Options) (key : String) : Bool := (options.get? key).isSome

/-- The value given for a key that must have one if it is given at all. -/
def value? (options : Options) (key : String) : Except Fault (Option String) :=
  match options.get? key with
  | none => .ok none
  | some (.value s) => .ok (some s)
  | some .flag => .error (.of (.argument (.noValue key)))

end Options

end Branding
