/-!
# Binary floating point in exact arithmetic

A number that is no integer of 64 bits is kept as a binary64 value: a sign, a significand below
`2 ^ 53` and a power of two. The two operations needed here, rounding a ratio to the nearest
value and finding the shortest decimal that rounds to a value, are done on natural numbers, so
nothing depends on the arithmetic of the machine.

## Main definitions

* `Binary64` — a finite value
* `Binary64.ofRatio?` — the nearest value to a ratio, ties to even, `none` when it overflows
* `Binary64.mul?`, `Binary64.div?` — the rounded product and quotient
* `Binary64.shortest` — the fewest decimal digits that round back to the value
-/

namespace Branding

/-- The finite value `± significand * 2 ^ exponent`. Zero has exponent `-1074`, and every other
value the largest exponent its significand allows. -/
structure Binary64 where
  negative : Bool
  significand : Nat
  exponent : Int
  deriving DecidableEq, Repr

namespace Binary64

/-- A power of two. -/
def twoTo (n : Nat) : Nat := Nat.pow 2 n

/-- A power of ten. -/
def tenTo (n : Nat) : Nat := Nat.pow 10 n

/-- The least exponent, that of the subnormal values. -/
def leastExponent : Int := -1074

/-- The greatest exponent of a finite value. -/
def greatestExponent : Int := 971

/-- Zero of either sign. -/
def zero (negative : Bool) : Binary64 := ⟨negative, 0, leastExponent⟩

def isZero (x : Binary64) : Bool := x.significand == 0

/-- The magnitude as a ratio of natural numbers. -/
def ratio (x : Binary64) : Nat × Nat :=
  if 0 ≤ x.exponent then (x.significand * twoTo x.exponent.toNat, 1)
  else (x.significand, twoTo (-x.exponent).toNat)

/-- The quotient of two numbers rounded to the nearest integer, ties to even. -/
def roundDiv (num den : Nat) : Nat :=
  let q := num / den
  let r := num % den
  if 2 * r < den then q
  else if den < 2 * r then q + 1
  else if q % 2 = 0 then q else q + 1

/-- A ratio counted in units of `2 ^ e`, rounded to the nearest count. -/
def countIn (num den : Nat) (e : Int) : Nat :=
  if 0 ≤ e then roundDiv num (den * twoTo e.toNat) else roundDiv (num * twoTo (-e).toNat) den

/-- Whether a positive ratio is below `2 ^ (e + 53)`, so that `2 ^ e` is a fine enough unit. -/
def fitsUnit (num den : Nat) (e : Int) : Bool :=
  if 0 ≤ e + 53 then num < den * twoTo (e + 53).toNat else num * twoTo (-(e + 53)).toNat < den

/-- The nearest value to `num / den`, ties to even, or `none` when it is out of range. The unit
is one of two powers of two next to each other, as the logarithms of the two numbers leave the
ratio undecided by a factor of two. -/
def ofRatio? (negative : Bool) (num den : Nat) : Option Binary64 :=
  if num = 0 then some (zero negative)
  else
    let low : Int := (Nat.log2 num : Int) - Nat.log2 den - 53
    let unit := max leastExponent (if fitsUnit num den low then low else low + 1)
    let count := countIn num den unit
    let (count, unit) := if count = twoTo 53 then (twoTo 52, unit + 1) else (count, unit)
    if count = 0 then some (zero negative)
    else if greatestExponent < unit then none
    else some ⟨negative, count, unit⟩

/-- The nearest value to a natural number. -/
def ofNat? (n : Nat) : Option Binary64 := ofRatio? false n 1

/-- The rounded product of two magnitudes. -/
def mul? (x y : Binary64) : Option Binary64 :=
  let (a, b) := x.ratio
  let (c, d) := y.ratio
  ofRatio? false (a * c) (b * d)

/-- The rounded quotient of two magnitudes, the second of them not zero. -/
def div? (x y : Binary64) : Option Binary64 :=
  let (a, b) := x.ratio
  let (c, d) := y.ratio
  ofRatio? false (a * d) (b * c)

/-! ### Shortest decimal -/

/-- The decimal exponent of a positive ratio: that of the greatest power of ten not above it.
Below one it is counted by the digits of the inverse, rounded up and less one. -/
def decimalExponent (num den : Nat) : Int :=
  if den ≤ num then ((Nat.toDigits 10 (num / den)).length : Int) - 1
  else -((Nat.toDigits 10 ((den + num - 1) / num - 1)).length : Int)

/-- The reals that round to a value form an interval; this says whether `count * 10 ^ unit` lies
in it. All three are compared in quarters of the value's last place, since the interval is
narrower below a power of two. The ends belong to it when the significand is even. -/
def roundsTo (x : Binary64) (count : Nat) (unit : Int) : Bool :=
  let below := if x.significand = twoTo 52 ∧ leastExponent < x.exponent then 1 else 2
  let quarter := x.exponent - 2
  -- count * 10 ^ unit against n * 2 ^ quarter
  let (tenUp, tenDown) := if 0 ≤ unit then (tenTo unit.toNat, 1) else (1, tenTo (-unit).toNat)
  let (twoUp, twoDown) :=
    if 0 ≤ quarter then (twoTo quarter.toNat, 1) else (1, twoTo (-quarter).toNat)
  let here := count * tenUp * twoDown
  let low := (4 * x.significand - below) * twoUp * tenDown
  let high := (4 * x.significand + 2) * twoUp * tenDown
  if x.significand % 2 = 0 then low ≤ here && here ≤ high else low < here && here < high

/-- The neighbours of a value on the decimal grid with the given unit, the nearer of those that
round to it, and the even one where both are as near. -/
def onGrid? (x : Binary64) (unit : Int) : Option Nat :=
  let (num, den) := x.ratio
  let (num, den) :=
    if 0 ≤ unit then (num, den * tenTo unit.toNat) else (num * tenTo (-unit).toNat, den)
  let floor := num / den
  let double := 2 * (num % den)
  let nearFloor := double < den || (double == den && floor % 2 == 0)
  match x.roundsTo floor unit, x.roundsTo (floor + 1) unit with
  | true, true => some (if nearFloor then floor else floor + 1)
  | true, false => some floor
  | false, true => some (floor + 1)
  | false, false => none

/-- Digits without the zeros at their end. -/
def stripZeros (digits : List Char) : List Char := (digits.reverse.dropWhile (· == '0')).reverse

/-- The digits of the shortest decimal that rounds to a value that is not zero, and the decimal
exponent of the first of them. Seventeen digits always suffice. A value just below a power of ten
may round to that power, which leaves a zero at the end. -/
def shortest (x : Binary64) : List Char × Int :=
  let (num, den) := x.ratio
  let first := decimalExponent num den
  let found := (List.range 17).findSome? fun (n : Nat) =>
    (x.onGrid? (first - n)).map fun count => (count, first - n)
  match found with
  | none => (['0'], 0)
  | some (count, unit) =>
    let digits := Nat.toDigits 10 count
    (stripZeros digits, unit + (digits.length : Int) - 1)

end Binary64

end Branding
