import Branding.Text.Char

/-!
# Dates and times of a settings file

No setting takes a date or a time, so one only has to be told from what is none, and what counts is
where it ends. A date must be one of the calendar. A time has hours, minutes and seconds, of which
the last may be a leap second, and as many digits of a fraction as it likes. A date and a time
together may say how far they are from universal time; a time by itself may not.

## Main definitions

* `Toml.daysIn` — the length of a month
* `Toml.afterDate?`, `Toml.afterTime?` — what follows a date and a time
* `Toml.afterMoment?` — what follows a date, a time, or a date with a time
-/

namespace Branding

namespace Toml

/-- Whether a year has a leap day. -/
def isLeapYear (year : Nat) : Bool := year % 4 == 0 && (year % 100 != 0 || year % 400 == 0)

/-- The days of a month. -/
def daysIn (year month : Nat) : Nat :=
  if month = 2 then (if isLeapYear year then 29 else 28)
  else if month ∈ [4, 6, 9, 11] then 30
  else 31

/-- The number written with so many decimal digits at the head of a text, and what follows it. -/
def fixedNumber? (count : Nat) (text : List Char) : Option (Nat × List Char) :=
  let digits := text.take count
  if digits.length = count ∧ digits.all Char.isDigit then
    some (digits.foldl (fun n c => n * 10 + (c.toNat - '0'.toNat)) 0, text.drop count)
  else none

/-- What follows the date at the head of a text. -/
def afterDate? (text : List Char) : Option (List Char) := do
  let (year, rest) ← fixedNumber? 4 text
  let (month, rest) ← fixedNumber? 2 (← afterWord? ['-'] rest)
  let (day, rest) ← fixedNumber? 2 (← afterWord? ['-'] rest)
  if 1 ≤ month ∧ month ≤ 12 ∧ 1 ≤ day ∧ day ≤ daysIn year month then some rest else none

/-- What follows hours and minutes. -/
def afterMinutes? (text : List Char) : Option (List Char) := do
  let (hour, rest) ← fixedNumber? 2 text
  let (minute, rest) ← fixedNumber? 2 (← afterWord? [':'] rest)
  if hour < 24 ∧ minute < 60 then some rest else none

/-- What follows the fraction of a second, which is nothing where no digit follows a point. -/
def afterFraction (text : List Char) : List Char :=
  match text with
  | '.' :: c :: rest => if c.isDigit then rest.dropWhile Char.isDigit else text
  | _ => text

/-- What follows the time at the head of a text. -/
def afterTime? (text : List Char) : Option (List Char) := do
  let rest ← afterMinutes? text
  let (second, rest) ← fixedNumber? 2 (← afterWord? [':'] rest)
  if second ≤ 60 then some (afterFraction rest) else none

/-- What follows the distance from universal time, which may be left out. -/
def afterOffset? : List Char → Option (List Char)
  | [] => some []
  | c :: rest =>
    if c = 'Z' ∨ c = 'z' then some rest
    else if c = '+' ∨ c = '-' then afterMinutes? rest
    else some (c :: rest)

/-- What follows the time that goes with a date, or what follows the date where no time does. -/
def afterTimeOfDay? : List Char → Option (List Char)
  | [] => some []
  | c :: rest =>
    if c = 'T' ∨ c = 't' ∨ c = ' ' then
      match afterTime? rest with
      | some rest => afterOffset? rest
      | none => some (c :: rest)
    else some (c :: rest)

/-- What follows the date, the time, or the date with a time at the head of a text. -/
def afterMoment? (text : List Char) : Option (List Char) :=
  match afterDate? text with
  | some rest => afterTimeOfDay? rest
  | none => afterTime? text

end Toml

end Branding
