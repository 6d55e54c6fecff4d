import Branding.Json.Basic

/-!
# Writing JSON

Every element and member has a line of its own, two spaces deeper than its container. There is
nothing between the brackets of an empty container.

A number that is no integer is written with the fewest digits that read back. It is positional
from `1e-5` up to, but not including, `1e16`, and then always has a fraction; outside it has a
signed exponent.

## Main definitions

* `Json.indented` — a value
* `Json.quoteString` — a string between quotes
* `Json.Number.text` — a number
-/

namespace Branding

namespace Json

/-! ### Strings -/

/-- The lower-case hexadecimal digit of a number below sixteen. -/
def hexDigit (n : Nat) : Char := Nat.digitChar n

/-- A character inside a string. Only quotes, backslashes and controls are escaped. -/
def escapeChar (c : Char) : List Char :=
  if c = '"' then ['\\', '"']
  else if c = '\\' then ['\\', '\\']
  else if c = '\n' then ['\\', 'n']
  else if c = '\r' then ['\\', 'r']
  else if c = '\t' then ['\\', 't']
  else if c = '\x08' then ['\\', 'b']
  else if c = '\x0c' then ['\\', 'f']
  else if c.toNat < 0x20 then
    ['\\', 'u', '0', '0', hexDigit (c.toNat / 16), hexDigit (c.toNat % 16)]
  else [c]

/-- A string between quotes. -/
def quoteString (s : String) : List Char := '"' :: s.toList.flatMap escapeChar ++ ['"']

/-! ### Numbers -/

/-- The least decimal exponent that is written positionally. -/
def leastPositional : Int := -5

/-- The decimal exponent from which on numbers are written with an exponent. -/
def positionalEnd : Int := 16

/-- Digits with a decimal point, given the decimal exponent of the first. -/
def positional (digits : List Char) (first : Int) : List Char :=
  if first < 0 then
    '0' :: '.' :: List.replicate (-first - 1).toNat '0' ++ digits
  else
    let whole := first.toNat + 1
    if digits.length ≤ whole then
      digits ++ List.replicate (whole - digits.length) '0' ++ ['.', '0']
    else digits.take whole ++ '.' :: digits.drop whole

/-- Digits with an exponent, which always has a sign. -/
def scientific (digits : List Char) (first : Int) : List Char :=
  let mantissa :=
    match digits with
    | d :: d' :: rest => d :: '.' :: d' :: rest
    | digits => digits
  mantissa ++ 'e' :: (if first < 0 then '-' else '+') :: Nat.toDigits 10 first.natAbs

/-- A binary64 value in the fewest digits that read back. -/
def floatText (x : Binary64) : List Char :=
  let sign := if x.negative then ['-'] else []
  if x.isZero then sign ++ ['0', '.', '0']
  else
    let (digits, first) := x.shortest
    sign ++
      if leastPositional ≤ first ∧ first < positionalEnd then positional digits first
      else scientific digits first

/-- A number. -/
def Number.text : Number → List Char
  | .natural n => Nat.toDigits 10 n
  | .negative n => '-' :: Nat.toDigits 10 n
  | .float x => floatText x

/-! ### Values -/

/-- The start of a line at the given depth. -/
def newLine (depth : Nat) : List Char := '\n' :: List.replicate (2 * depth) ' '

mutual

/-- A value whose container stands at the given depth, one element or member a line. -/
def indentedChars (depth : Nat) : Json → List Char
  | .null => "null".toList
  | .bool true => "true".toList
  | .bool false => "false".toList
  | .number n => n.text
  | .string s => quoteString s
  | .array [] => ['[', ']']
  | .array (v :: vs) =>
    '[' :: newLine (depth + 1) ++ indentedChars (depth + 1) v ++ indentedItems (depth + 1) vs ++
      newLine depth ++ [']']
  | .object [] => ['\x7b', '\x7d']
  | .object ((k, v) :: ms) =>
    '\x7b' :: newLine (depth + 1) ++ quoteString k ++ ':' :: ' ' :: indentedChars (depth + 1) v ++
      indentedMembers (depth + 1) ms ++ newLine depth ++ ['\x7d']

/-- The items after the first, on lines at the given depth. -/
def indentedItems (depth : Nat) : List Json → List Char
  | [] => []
  | v :: vs => ',' :: newLine depth ++ indentedChars depth v ++ indentedItems depth vs

/-- The members after the first, on lines at the given depth. -/
def indentedMembers (depth : Nat) : List (String × Json) → List Char
  | [] => []
  | (k, v) :: ms =>
    ',' :: newLine depth ++ quoteString k ++ ':' :: ' ' :: indentedChars depth v ++
      indentedMembers depth ms

end

/-- A value on as many lines as it has elements and members. -/
def indented (v : Json) : String := String.ofList (v.indentedChars 0)

end Json

end Branding
