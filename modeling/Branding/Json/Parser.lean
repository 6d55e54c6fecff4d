import Branding.Json.Basic
import Branding.Text.Char

/-!
# Reading JSON

A text is a value with white space around it and nothing else. The reader is strict: no comment,
no trailing comma, no leading zero, no control character inside a string, no escape of half a
character. Containers may be nested up to a fixed depth. Of two members with one key the later
value counts, in the place of the earlier.

A number without fraction and exponent that fits 64 bits is an integer, except that `-0` is a
float so that its sign is kept. The digits of any other number are gathered into 64 bits, as far
as they fit, and scaled by a power of ten afterwards.

## Main definitions

* `Json.parse?` — the value a text holds
* `Json.value?` — the value at the head of a text, within a nesting depth
* `Json.stringBody?`, `Json.number?` — the same for a string and for a number
-/

namespace Branding

namespace Json

/-- The white space of the format. -/
def isSpace (c : Char) : Bool := c == ' ' || c == '\t' || c == '\n' || c == '\r'

/-- What follows the white space at the head of a text. -/
def skipSpace (text : List Char) : List Char := text.dropWhile isSpace

/-! ### Strings -/

/-- The value of four hexadecimal digits. -/
def hexUnit? (a b c d : Char) : Option Nat := do
  let a ← hexDigit? a
  let b ← hexDigit? b
  let c ← hexDigit? c
  let d ← hexDigit? d
  return ((a * 16 + b) * 16 + c) * 16 + d

/-- The character a one-letter escape stands for. -/
def escaped? : Char → Option Char
  | '"' => some '"'
  | '\\' => some '\\'
  | '/' => some '/'
  | 'b' => some '\x08'
  | 'f' => some '\x0c'
  | 'n' => some '\n'
  | 'r' => some '\r'
  | 't' => some '\t'
  | _ => none

/-- The characters of a string up to its closing quote, and what follows the quote. A character
beyond the basic plane is escaped as two units, and neither unit may stand alone. -/
def stringBody? : List Char → Option (List Char × List Char)
  | [] => none
  | '"' :: rest => some ([], rest)
  | '\\' :: 'u' :: a :: b :: c :: d :: rest => do
    let unit ← hexUnit? a b c d
    if 0xD800 ≤ unit ∧ unit < 0xDC00 then
      match rest with
      | '\\' :: 'u' :: e :: f :: g :: h :: rest =>
        let low ← hexUnit? e f g h
        if 0xDC00 ≤ low ∧ low < 0xE000 then
          let (chars, rest) ← stringBody? rest
          return (Char.ofNat ((unit - 0xD800) * 0x400 + (low - 0xDC00) + 0x10000) :: chars, rest)
        else none
      | _ => none
    else if 0xDC00 ≤ unit ∧ unit < 0xE000 then none
    else
      let (chars, rest) ← stringBody? rest
      return (Char.ofNat unit :: chars, rest)
  | '\\' :: e :: rest => do
    let c ← escaped? e
    let (chars, rest) ← stringBody? rest
    return (c :: chars, rest)
  | c :: rest =>
    if c.toNat < 0x20 ∨ c = '\\' then none
    else do
      let (chars, rest) ← stringBody? rest
      return (c :: chars, rest)
termination_by structural text => text

/-! ### Numbers -/

/-- The largest significand that digits are gathered into. -/
def significandLimit : Nat := Binary64.twoTo 64 - 1

/-- Gather digits into a significand while it stays within the limit. Also the digits left. -/
def gather : Nat → List Char → Nat × List Char
  | significand, [] => (significand, [])
  | significand, d :: ds =>
    let next := significand * 10 + (d.toNat - '0'.toNat)
    if significandLimit < next then (significand, d :: ds) else gather next ds

/-- The float nearest to a power of ten. -/
def powerOfTen? (n : Nat) : Option Binary64 := Binary64.ofNat? (Binary64.tenTo n)

/-- Divide by powers of ten until the exponent is used up. The counter bounds the number of
divisions by the largest power; three of them bring every significand to zero. -/
def scaleDown? : Nat → Binary64 → Nat → Option Binary64
  | 0, x, _ => some (Binary64.zero x.negative)
  | fuel + 1, x, exponent =>
    if exponent ≤ 308 then (powerOfTen? exponent).bind x.div?
    else if x.isZero then some x
    else (powerOfTen? 308).bind x.div? |>.bind fun y => scaleDown? fuel y (exponent - 308)

/-- A significand times a power of ten, rounded at each of its steps. Out of range above, `none`;
below, zero. -/
def scale? (negative : Bool) (significand : Nat) (exponent : Int) : Option Binary64 := do
  let x ← Binary64.ofNat? significand
  let scaled ←
    if x.isZero then some x
    else if 0 ≤ exponent then
      if exponent ≤ 308 then (powerOfTen? exponent.toNat).bind x.mul? else none
    else scaleDown? 4 x exponent.natAbs
  return { scaled with negative }

/-- The exponent part at the head of a text: zero when there is none, `none` when it is broken. -/
def exponent? : List Char → Option (Int × Bool × List Char)
  | [] => some (0, false, [])
  | e :: rest =>
    if e = 'e' ∨ e = 'E' then
      let (negative, rest) :=
        match rest with
        | '+' :: rest => (false, rest)
        | '-' :: rest => (true, rest)
        | rest => (false, rest)
      let digits := rest.takeWhile Char.isDigit
      if digits.isEmpty then none
      else
        let n : Int := digits.foldl (fun n d => n * 10 + (d.toNat - '0'.toNat)) 0
        some (if negative then -n else n, true, rest.dropWhile Char.isDigit)
    else some (0, false, e :: rest)

/-- The digits after a decimal point: none when there is no point, `none` when no digit follows
it. -/
def fraction? : List Char → Option (List Char × List Char)
  | '.' :: rest =>
    let digits := rest.takeWhile Char.isDigit
    if digits.isEmpty then none else some (digits, rest.dropWhile Char.isDigit)
  | rest => some ([], rest)

/-- An integer of 64 bits, or the float it overflows into. -/
def integer? (negative : Bool) (significand : Nat) : Option Number :=
  if negative then
    if 0 < significand ∧ significand ≤ Binary64.twoTo 63 then some (.negative significand)
    else (scale? true significand 0).map .float
  else some (.natural significand)

/-- The number at the head of a text, its sign already read. -/
def unsignedNumber? (negative : Bool) (text : List Char) : Option (Number × List Char) := do
  let whole := text.takeWhile Char.isDigit
  if whole.isEmpty ∨ (whole.head? = some '0' ∧ 1 < whole.length) then none
  let (fraction, rest) ← fraction? (text.dropWhile Char.isDigit)
  let (exponent, hasExponent, rest) ← exponent? rest
  let (significand, wholeLeft) := gather 0 whole
  if fraction.isEmpty ∧ !hasExponent ∧ wholeLeft.isEmpty then
    return (← integer? negative significand, rest)
  let (significand, fractionLeft) := gather significand fraction
  let gathered := fraction.length - fractionLeft.length
  let x ← scale? negative significand (exponent + wholeLeft.length - gathered)
  return (.float x, rest)

/-- The number at the head of a text. -/
def number? : List Char → Option (Number × List Char)
  | '-' :: rest => unsignedNumber? true rest
  | text => unsignedNumber? false text

/-! ### Values -/

/-- Items separated by commas up to the closing bracket, at least one. The counter bounds the
number of items; a text has no more of them than characters. -/
def items? {α : Type} (item? : List Char → Option (α × List Char)) (close : Char) :
    Nat → List Char → Option (List α × List Char)
  | 0, _ => none
  | fuel + 1, text => do
    let (item, rest) ← item? (skipSpace text)
    match skipSpace rest with
    | [] => none
    | c :: rest =>
      if c = close then return ([item], rest)
      else if c = ',' then
        let (more, rest) ← items? item? close fuel rest
        return (item :: more, rest)
      else none

/-- The inside of a container and its closing bracket: nothing, or items. -/
def container? {α : Type} (item? : List Char → Option (α × List Char)) (close : Char)
    (text : List Char) : Option (List α × List Char) :=
  match skipSpace text with
  | [] => none
  | c :: rest =>
    if c = close then some ([], rest)
    else items? item? close (c :: rest).length (c :: rest)

/-- A key, a colon and a value. -/
def member? (value? : List Char → Option (Json × List Char)) :
    List Char → Option ((String × Json) × List Char)
  | '"' :: text => do
    let (key, rest) ← stringBody? text
    match skipSpace rest with
    | ':' :: rest =>
      let (value, rest) ← value? (skipSpace rest)
      return ((String.ofList key, value), rest)
    | _ => none
  | _ => none

/-- A word that stands for a value. -/
def literal? (word : List Char) (value : Json) (text : List Char) : Option (Json × List Char) :=
  if text.take word.length = word then some (value, text.drop word.length) else none

/-- The value at the head of a text, with containers nested at most `depth` deep. -/
def value? (depth : Nat) (text : List Char) : Option (Json × List Char) :=
  match text with
  | [] => none
  | 'n' :: _ => literal? "null".toList .null text
  | 't' :: _ => literal? "true".toList (.bool true) text
  | 'f' :: _ => literal? "false".toList (.bool false) text
  | '"' :: rest => (stringBody? rest).map fun (chars, rest) => (.string (String.ofList chars), rest)
  | '[' :: rest =>
    match depth with
    | 0 => none
    | depth + 1 => (container? (value? depth) ']' rest).map fun (vs, rest) => (.array vs, rest)
  | '\x7b' :: rest =>
    match depth with
    | 0 => none
    | depth + 1 =>
      (container? (member? (value? depth)) '\x7d' rest).map fun (ms, rest) =>
        (.object (Members.merge [] ms), rest)
  | _ => (number? text).map fun (n, rest) => (.number n, rest)

/-- How deep containers may be nested. -/
def depthLimit : Nat := 127

/-- The value a text holds. -/
def parse? (text : String) : Option Json := do
  let (value, rest) ← value? depthLimit (skipSpace text.toList)
  if (skipSpace rest).isEmpty then some value else none

end Json

end Branding
