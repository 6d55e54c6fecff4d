import Branding.Binary64
import Branding.Text.Char

/-!
# Numbers of a settings file

No setting takes a number, so a number only has to be told from what is none, and what counts is
where it ends. That is not the form alone: an integer must fit 64 bits with a sign, and a positive
number with a fraction or an exponent must not be too great for binary64. A negative one may be.

Between two digits, and nowhere else, an underscore may stand.

## Main definitions

* `Toml.digits?` — digits, with underscores between them
* `Toml.afterNumber?` — what follows the number at the head of a text
* `Toml.isInt64`, `Toml.isBelowOverflow` — the two bounds
-/

namespace Branding

namespace Toml

/-- Whether a character is a digit of a base. -/
def isDigitOf (base : Nat) (c : Char) : Bool :=
  match hexDigit? c with
  | some digit => digit < base
  | none => false

/-- The number that digits of a base write. -/
def digitsValue (base : Nat) (digits : List Char) : Nat :=
  digits.foldl (fun n c => n * base + (hexDigit? c).getD 0) 0

/-- The digits of a base at the head of a text, at least one, and what follows them. An
underscore goes on to one more digit. -/
def digits? (base : Nat) : List Char → Option (List Char × List Char)
  | [] => none
  | c :: rest =>
    if isDigitOf base c then
      match rest with
      | [] => some ([c], [])
      | d :: more =>
        if d = '_' then (digits? base more).map fun (digits, rest) => (c :: digits, rest)
        else if isDigitOf base d then
          (digits? base (d :: more)).map fun (digits, rest) => (c :: digits, rest)
        else some ([c], d :: more)
    else none

/-- Whether a sign is a minus, and what follows the sign, if there is one. -/
def splitSign : List Char → Bool × List Char
  | '-' :: rest => (true, rest)
  | '+' :: rest => (false, rest)
  | text => (false, text)

/-- Whether a magnitude with a sign is an integer of 64 bits. -/
def isInt64 (negative : Bool) (magnitude : Nat) : Bool :=
  if negative then magnitude ≤ Binary64.twoTo 63 else magnitude < Binary64.twoTo 63

/-- The greatest power of ten that is a binary64 value. -/
def greatestTen : Int := 308

/-- Whether the number that digits write, times a power of ten, rounds to a finite binary64 value.
The count of its digits settles this, except next to the greatest value. -/
def isBelowOverflow (digits : List Char) (exponent : Int) : Bool :=
  let digits := digits.dropWhile (· == '0')
  let places := exponent + digits.length
  if digits.isEmpty || places ≤ greatestTen then true
  else if greatestTen + 1 < places then false
  else
    let value := digitsValue 10 digits
    let rounded :=
      if 0 ≤ exponent then Binary64.ofNat? (value * Binary64.tenTo exponent.toNat)
      else Binary64.ofRatio? false value (Binary64.tenTo (-exponent).toNat)
    rounded.isSome

/-- The digits of a fraction, none where there is no point. -/
def fraction? : List Char → Option (List Char × List Char)
  | '.' :: rest => digits? 10 rest
  | text => some ([], text)

/-- An exponent, zero where there is none. -/
def exponent? : List Char → Option (Int × List Char)
  | [] => some (0, [])
  | c :: rest =>
    if c = 'e' ∨ c = 'E' then
      let (negative, rest) := splitSign rest
      (digits? 10 rest).map fun (digits, rest) =>
        let n : Int := digitsValue 10 digits
        (if negative then -n else n, rest)
    else some (0, c :: rest)

/-- Whether a fraction or an exponent comes next. -/
def goesOn : List Char → Bool
  | [] => false
  | c :: _ => c == '.' || c == 'e' || c == 'E'

/-- What follows a decimal number, its sign already read. A zero in front of other digits is
refused. -/
def afterDecimal? (negative : Bool) (text : List Char) : Option (List Char) := do
  let (whole, rest) ← digits? 10 text
  if whole.head? = some '0' ∧ 1 < whole.length then none
  else if goesOn rest then
    let (fraction, rest) ← fraction? rest
    let (exponent, rest) ← exponent? rest
    if negative || isBelowOverflow (whole ++ fraction) (exponent - fraction.length) then some rest
    else none
  else if isInt64 negative (digitsValue 10 whole) then some rest
  else none

/-- What follows an integer of a base that is no decimal, the name of the base already read. -/
def afterBased? (base : Nat) (text : List Char) : Option (List Char) := do
  let (digits, rest) ← digits? base text
  if isInt64 false (digitsValue base digits) then some rest else none

/-- What follows the number at the head of a text. Only a decimal number has a sign, and the two
words for what is no finite number are decimals too. -/
def afterNumber? : List Char → Option (List Char)
  | '0' :: 'x' :: rest => afterBased? 16 rest
  | '0' :: 'o' :: rest => afterBased? 8 rest
  | '0' :: 'b' :: rest => afterBased? 2 rest
  | text =>
    match splitSign text with
    | (_, 'i' :: 'n' :: 'f' :: rest) => some rest
    | (_, 'n' :: 'a' :: 'n' :: rest) => some rest
    | (negative, text) => afterDecimal? negative text

end Toml

end Branding
