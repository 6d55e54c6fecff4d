import Mathlib
import Branding.Json.Parser
import Branding.Proofs.Binary64

/-!
# Reading numbers

A number is read in two steps: its parts are cut from the text, and a value is made of them. What is
cut ends before the first character that continues no number, so a number that is a whole text is
read the same in front of such a character. What is made of the parts is always in range, and it is
always made when the significand, times the power of ten, stays some way below the greatest value.

## Main definitions

* `Json.EndsNumber` — a text that does not go on with a number
* `Json.numberOf?` — the value of the parts of a number
* `Json.Number.InRange` — an integer of 64 bits or a float in range

## Main results

* `Json.unsignedNumber?_eq_some_iff` — cutting and valuing
* `Json.number?_append` — what stands behind a number does not matter
* `Json.inRange_of_number?` — whatever is read is in range
* `Json.exists_scale?`, `Json.exists_scale?_of_nonpos` — when a float is made
-/

namespace Branding

namespace Json

/-! ### Digits -/

section Digits

variable {text rest : List Char}

theorem takeWhile_append_of_head {p : Char → Bool} (h : ∀ c ∈ rest.head?, p c = false) :
    (text ++ rest).takeWhile p = text.takeWhile p := by
  induction text with
  | nil =>
    cases rest with
    | nil => rfl
    | cons c rest => exact List.takeWhile_cons_of_neg (by simp [h c rfl])
  | cons c text ih => rw [List.cons_append, List.takeWhile_cons, List.takeWhile_cons, ih]

theorem dropWhile_append_of_head {p : Char → Bool} (h : ∀ c ∈ rest.head?, p c = false) :
    (text ++ rest).dropWhile p = text.dropWhile p ++ rest := by
  induction text with
  | nil =>
    cases rest with
    | nil => rfl
    | cons c rest => exact List.dropWhile_cons_of_neg (by simp [h c rfl])
  | cons c text ih =>
    rw [List.cons_append, List.dropWhile_cons, List.dropWhile_cons, ih]
    split <;> rfl

/-- A text that does not go on with a number. -/
def EndsNumber (rest : List Char) : Prop :=
  ∀ c ∈ rest.head?, c.isDigit = false ∧ c ≠ '.' ∧ c ≠ 'e' ∧ c ≠ 'E'

theorem EndsNumber.isDigit (h : EndsNumber rest) : ∀ c ∈ rest.head?, c.isDigit = false :=
  fun c hc => (h c hc).1

end Digits

/-! ### The parts of a number -/

section Parts

variable {negative hasExponent : Bool} {text rest left whole fraction : List Char} {exponent : Int}

theorem fraction?_of_ne (h : ∀ c ∈ text.head?, c ≠ '.') : fraction? text = some ([], text) := by
  unfold fraction?
  split
  · exact absurd rfl (h _ rfl)
  · rfl

theorem fraction?_append (hrest : EndsNumber rest) (h : fraction? text = some (fraction, left)) :
    fraction? (text ++ rest) = some (fraction, left ++ rest) := by
  match text with
  | [] =>
    cases h
    exact fraction?_of_ne fun c hc => (hrest c hc).2.1
  | c :: text =>
    by_cases hc : c = '.'
    · subst hc
      rw [List.cons_append, fraction?, takeWhile_append_of_head hrest.isDigit,
        dropWhile_append_of_head hrest.isDigit]
      rw [fraction?] at h
      split at h
      · cases h
      next hne =>
        cases h
        rw [if_neg hne]
    · rw [fraction?_of_ne (by simpa using hc)] at h
      cases h
      exact fraction?_of_ne (by simpa using hc)

/-- The sign of an exponent, and what follows it. -/
def exponentSign : List Char → Bool × List Char
  | '+' :: rest => (false, rest)
  | '-' :: rest => (true, rest)
  | rest => (false, rest)

theorem exponentSign_append (h : text ≠ []) :
    exponentSign (text ++ rest) = ((exponentSign text).1, (exponentSign text).2 ++ rest) := by
  match text with
  | [] => exact absurd rfl h
  | c :: text =>
    by_cases hplus : c = '+'
    · subst hplus
      rfl
    by_cases hminus : c = '-'
    · subst hminus
      rfl
    have hother : ∀ text : List Char, exponentSign (c :: text) = (false, c :: text) := by
      intro text
      unfold exponentSign
      split
      next heq => exact absurd (List.cons.inj heq).1 hplus
      next heq => exact absurd (List.cons.inj heq).1 hminus
      next => rfl
    rw [List.cons_append, hother, hother]
    rfl

theorem exponent?_cons {e : Char} (he : e = 'e' ∨ e = 'E') (text : List Char) :
    exponent? (e :: text) =
      if ((exponentSign text).2.takeWhile Char.isDigit).isEmpty then none
      else
        let n : Int := ((exponentSign text).2.takeWhile Char.isDigit).foldl
          (fun n d => n * 10 + (d.toNat - '0'.toNat)) 0
        some (if (exponentSign text).1 then -n else n, true,
          (exponentSign text).2.dropWhile Char.isDigit) := by
  unfold exponent?
  dsimp only
  rw [if_pos he]
  rfl

theorem exponent?_of_ne (h : ∀ c ∈ text.head?, c ≠ 'e' ∧ c ≠ 'E') :
    exponent? text = some (0, false, text) := by
  cases text with
  | nil => rfl
  | cons c text =>
    unfold exponent?
    exact if_neg (not_or.2 (h c rfl))

theorem exponent?_append (hrest : EndsNumber rest)
    (h : exponent? text = some (exponent, hasExponent, left)) :
    exponent? (text ++ rest) = some (exponent, hasExponent, left ++ rest) := by
  match text with
  | [] =>
    cases h
    exact exponent?_of_ne fun c hc => ⟨(hrest c hc).2.2.1, (hrest c hc).2.2.2⟩
  | e :: text =>
    by_cases he : e = 'e' ∨ e = 'E'
    · have htext : text ≠ [] := by
        rintro rfl
        rw [exponent?_cons he] at h
        cases h
      rw [exponent?_cons he] at h
      rw [List.cons_append, exponent?_cons he, exponentSign_append htext,
        takeWhile_append_of_head hrest.isDigit, dropWhile_append_of_head hrest.isDigit]
      split at h
      · cases h
      next hne =>
        cases h
        rw [if_neg hne]
    · rw [exponent?_of_ne (by simpa using not_or.1 he)] at h
      cases h
      exact exponent?_of_ne (by simpa using not_or.1 he)

/-- The digits before a fraction: some, and no leading zero among several. -/
def IsWhole (digits : List Char) : Prop :=
  digits ≠ [] ∧ ¬(digits.head? = some '0' ∧ 1 < digits.length)

/-- The value of the parts of a number. -/
def numberOf? (negative : Bool) (whole fraction : List Char) (exponent : Int) (hasExponent : Bool) :
    Option Number :=
  let (significand, wholeLeft) := gather 0 whole
  if fraction.isEmpty ∧ !hasExponent ∧ wholeLeft.isEmpty then integer? negative significand
  else
    let (significand, fractionLeft) := gather significand fraction
    (scale? negative significand
      (exponent + wholeLeft.length - (fraction.length - fractionLeft.length : Nat))).map .float

theorem unsignedNumber?_eq_map (hwhole : IsWhole (text.takeWhile Char.isDigit))
    (hfraction : fraction? (text.dropWhile Char.isDigit) = some (fraction, left))
    (hexponent : exponent? left = some (exponent, hasExponent, rest)) :
    unsignedNumber? negative text =
      (numberOf? negative (text.takeWhile Char.isDigit) fraction exponent hasExponent).map
        fun n => (n, rest) := by
  have hgood : ¬((text.takeWhile Char.isDigit).isEmpty = true ∨
      (text.takeWhile Char.isDigit).head? = some '0' ∧
        1 < (text.takeWhile Char.isDigit).length) := by
    rw [not_or, List.isEmpty_iff]
    exact hwhole
  unfold unsignedNumber? numberOf?
  dsimp only [Option.bind_eq_bind]
  rw [if_neg hgood, hfraction, Option.bind_some, hexponent, Option.bind_some]
  split_ifs
  · rw [Option.map_eq_bind]
    rfl
  · rw [Option.map_map, Option.map_eq_bind]
    rfl

/-- A number is read when its parts can be cut from the text and have a value. -/
theorem unsignedNumber?_eq_some_iff {n : Number} :
    unsignedNumber? negative text = some (n, rest) ↔ IsWhole (text.takeWhile Char.isDigit) ∧
      ∃ fraction left exponent hasExponent,
        fraction? (text.dropWhile Char.isDigit) = some (fraction, left) ∧
        exponent? left = some (exponent, hasExponent, rest) ∧
        numberOf? negative (text.takeWhile Char.isDigit) fraction exponent hasExponent =
          some n := by
  constructor
  · intro h
    have hwhole : IsWhole (text.takeWhile Char.isDigit) := by
      unfold unsignedNumber? at h
      dsimp only at h
      split at h
      · cases h
      next hgood => rwa [not_or, List.isEmpty_iff] at hgood
    refine ⟨hwhole, ?_⟩
    cases hfraction : fraction? (text.dropWhile Char.isDigit) with
    | none => simp [unsignedNumber?, hfraction] at h
    | some cut =>
      obtain ⟨fraction, left⟩ := cut
      cases hexponent : exponent? left with
      | none => simp [unsignedNumber?, hfraction, hexponent] at h
      | some cut' =>
        obtain ⟨exponent, hasExponent, rest'⟩ := cut'
        rw [unsignedNumber?_eq_map hwhole hfraction hexponent, Option.map_eq_some_iff] at h
        obtain ⟨n', hn, heq⟩ := h
        cases heq
        exact ⟨fraction, left, exponent, hasExponent, rfl, hexponent, hn⟩
  · rintro ⟨hwhole, fraction, left, exponent, hasExponent, hfraction, hexponent, hn⟩
    rw [unsignedNumber?_eq_map hwhole hfraction hexponent, hn]
    rfl

theorem unsignedNumber?_append {n : Number} (hrest : EndsNumber rest)
    (h : unsignedNumber? negative text = some (n, left)) :
    unsignedNumber? negative (text ++ rest) = some (n, left ++ rest) := by
  rw [unsignedNumber?_eq_some_iff] at h ⊢
  obtain ⟨hwhole, fraction, left', exponent, hasExponent, hfraction, hexponent, hn⟩ := h
  rw [takeWhile_append_of_head hrest.isDigit, dropWhile_append_of_head hrest.isDigit]
  exact ⟨hwhole, fraction, _, exponent, hasExponent, fraction?_append hrest hfraction,
    exponent?_append hrest hexponent, hn⟩

theorem number?_of_ne {c : Char} (hc : c ≠ '-') (text : List Char) :
    number? (c :: text) = unsignedNumber? false (c :: text) := by
  unfold number?
  split
  next heq => exact absurd (List.cons.inj heq).1 hc
  next => rfl

/-- What stands behind a number does not matter. -/
theorem number?_append {n : Number} (hrest : EndsNumber rest) (h : number? text = some (n, left)) :
    number? (text ++ rest) = some (n, left ++ rest) := by
  match text with
  | [] => cases h
  | c :: text =>
    by_cases hc : c = '-'
    · subst hc
      exact unsignedNumber?_append hrest h
    · rw [number?_of_ne hc] at h
      rw [List.cons_append, number?_of_ne hc]
      exact unsignedNumber?_append hrest h

end Parts

/-! ### Gathering digits -/

section Gather

variable {significand : Nat} {digits : List Char}

theorem mul_ten_pow_le_ofDigitChars (significand : Nat) (digits : List Char) :
    significand * 10 ^ digits.length ≤ Nat.ofDigitChars 10 digits significand := by
  rw [Nat.ofDigitChars_eq_ofDigitChars_zero, Nat.mul_comm]
  exact Nat.le_add_right _ _

theorem ofDigitChars_lt (h : ∀ d ∈ digits, d.isDigit = true) :
    Nat.ofDigitChars 10 digits significand < (significand + 1) * 10 ^ digits.length := by
  induction digits generalizing significand with
  | nil => simp
  | cons d digits ih =>
    rw [List.forall_mem_cons, Char.isDigit_iff_toNat] at h
    have hd : d.toNat - '0'.toNat ≤ 9 := by
      have : '0'.toNat = 48 := rfl
      have : '9'.toNat = 57 := rfl
      omega
    rw [Nat.ofDigitChars_cons, List.length_cons, Nat.pow_succ']
    calc Nat.ofDigitChars 10 digits (10 * significand + (d.toNat - '0'.toNat))
        < (10 * significand + (d.toNat - '0'.toNat) + 1) * 10 ^ digits.length := ih h.2
      _ ≤ ((significand + 1) * 10) * 10 ^ digits.length := Nat.mul_le_mul_right _ (by omega)
      _ = (significand + 1) * (10 * 10 ^ digits.length) := Nat.mul_assoc _ _ _

theorem gather_le (h : significand ≤ significandLimit) :
    (gather significand digits).1 ≤ significandLimit := by
  induction digits generalizing significand with
  | nil => exact h
  | cons d digits ih =>
    rw [gather]
    split
    · exact h
    · exact ih (by omega)

/-- All digits are gathered when their value stays within the limit. -/
theorem gather_of_le (h : Nat.ofDigitChars 10 digits significand ≤ significandLimit) :
    gather significand digits = (Nat.ofDigitChars 10 digits significand, []) := by
  induction digits generalizing significand with
  | nil => rfl
  | cons d digits ih =>
    rw [Nat.ofDigitChars_cons] at h ⊢
    have hnext : 10 * significand + (d.toNat - '0'.toNat) ≤ significandLimit := by
      refine le_trans (le_trans ?_ (mul_ten_pow_le_ofDigitChars _ digits)) h
      exact Nat.le_mul_of_pos_right _ (Nat.pow_pos (by decide))
    rw [gather, Nat.mul_comm significand, if_neg (by omega), ih h]

/-- What is gathered, with a zero for every digit that is left, is not above the value. -/
theorem gather_mul_le (significand : Nat) (digits : List Char) :
    (gather significand digits).1 * 10 ^ (gather significand digits).2.length ≤
        Nat.ofDigitChars 10 digits significand ∧
      (gather significand digits).2.length ≤ digits.length := by
  induction digits generalizing significand with
  | nil => simp [gather]
  | cons d digits ih =>
    rw [gather]
    split
    · exact ⟨mul_ten_pow_le_ofDigitChars significand (d :: digits), le_rfl⟩
    · obtain ⟨hle, hlength⟩ := ih (significand * 10 + (d.toNat - '0'.toNat))
      rw [Nat.ofDigitChars_cons, Nat.mul_comm 10]
      exact ⟨hle, Nat.le_succ_of_le hlength⟩

end Gather

/-! ### Scaling by a power of ten -/

section Scale

open Binary64

variable {negative : Bool} {significand n : Nat} {exponent : Int} {x y p : Binary64}

theorem greatest_eq_cast : greatest = (((2 ^ 53 - 1) * 2 ^ 971 : Nat) : ℚ) := by
  rw [greatest, show greatestExponent = ((971 : Nat) : Int) from rfl, zpow_natCast, Nat.cast_mul,
    Nat.cast_pow]
  norm_num

/-- The range of powers of ten ends with the one of 308. -/
theorem ten_pow_le_greatest_iff : ((10 ^ n : Nat) : ℚ) ≤ greatest ↔ n ≤ 308 := by
  have hin : 10 ^ 308 ≤ (2 ^ 53 - 1) * 2 ^ 971 := by decide +kernel
  have hout : (2 ^ 53 - 1) * 2 ^ 971 < 10 ^ 309 := by decide +kernel
  rw [greatest_eq_cast, Nat.cast_le]
  constructor
  · intro h
    have hlt := (Nat.pow_lt_pow_iff_right (by decide)).1 (h.trans_lt hout)
    omega
  · intro h
    have hpow : ∀ m, n ≤ m → 10 ^ n ≤ 10 ^ m := fun m hm => Nat.pow_le_pow_right (by decide) hm
    exact (hpow 308 h).trans hin

theorem exists_powerOfTen? (h : n ≤ 308) : ∃ p, powerOfTen? n = some p := by
  refine Option.isSome_iff_exists.1 (isSome_ofRatio? Nat.one_pos ?_)
  rw [Nat.cast_one, div_one]
  exact ten_pow_le_greatest_iff.2 h

theorem one_le_magnitude_of_powerOfTen? (h : powerOfTen? n = some p) : 1 ≤ p.magnitude :=
  one_le_magnitude_of_ofNat? (Nat.pow_pos (by decide)).ne' h

theorem magnitude_le_of_powerOfTen? (h : powerOfTen? n = some p) :
    p.magnitude ≤ 10 ^ n * (1 + 1 / 2 ^ 53) := by
  have hle := magnitude_le_of_ofNat? h
  rwa [cast_tenTo] at hle

/-- A division by a power of ten does not leave the range. -/
theorem exists_div?_powerOfTen? (hx : x.InRange) (h : n ≤ 308) :
    ∃ y, ((powerOfTen? n).bind x.div?) = some y ∧ y.InRange := by
  obtain ⟨p, hp⟩ := exists_powerOfTen? h
  have hone := one_le_magnitude_of_powerOfTen? hp
  have hpos : 0 < p.magnitude := lt_of_lt_of_le one_pos hone
  have hle : x.magnitude / p.magnitude ≤ greatest :=
    (div_le_self x.magnitude_nonneg hone).trans hx.magnitude_le
  obtain ⟨y, hy⟩ := Option.isSome_iff_exists.1 (isSome_div? hpos hle)
  exact ⟨y, by rw [hp, Option.bind_some, hy], inRange_of_div? hpos hy⟩

theorem exists_scaleDown? (fuel : Nat) (hx : x.InRange) (n : Nat) :
    ∃ y, scaleDown? fuel x n = some y ∧ y.InRange := by
  induction fuel generalizing x n with
  | zero => exact ⟨_, rfl, inRange_zero _⟩
  | succ fuel ih =>
    rw [scaleDown?]
    split_ifs with hn hzero
    · exact exists_div?_powerOfTen? hx hn
    · exact ⟨x, rfl, hx⟩
    · obtain ⟨y, hy, hrange⟩ := exists_div?_powerOfTen? hx (le_refl 308)
      rw [hy, Option.bind_some]
      exact ih hrange (n - 308)

/-- A value times a power of ten, before its sign is set. -/
def timesTenTo? (x : Binary64) (exponent : Int) : Option Binary64 :=
  if x.isZero then some x
  else if 0 ≤ exponent then
    if exponent ≤ 308 then (powerOfTen? exponent.toNat).bind x.mul? else none
  else scaleDown? 4 x exponent.natAbs

theorem scale?_eq_bind (negative : Bool) (significand : Nat) (exponent : Int) :
    scale? negative significand exponent = (ofNat? significand).bind fun x =>
      (timesTenTo? x exponent).map fun y => { y with negative } := by
  unfold scale? timesTenTo?
  rw [Option.bind_eq_bind]
  congr 1
  funext x
  split_ifs <;> simp [Option.map_eq_bind]

theorem inRange_of_timesTenTo? (hx : x.InRange) (h : timesTenTo? x exponent = some y) :
    y.InRange := by
  unfold timesTenTo? at h
  split_ifs at h with hzero hexponent hlarge
  · cases h
    exact hx
  · obtain ⟨p, -, hy⟩ := Option.bind_eq_some_iff.1 h
    exact inRange_of_mul? hy
  · obtain ⟨z, hz, hrange⟩ := exists_scaleDown? 4 hx exponent.natAbs
    rw [hz] at h
    cases h
    exact hrange

theorem inRange_of_scale? (h : scale? negative significand exponent = some y) : y.InRange := by
  rw [scale?_eq_bind] at h
  obtain ⟨x, hx, h⟩ := Option.bind_eq_some_iff.1 h
  obtain ⟨z, hz, rfl⟩ := Option.map_eq_some_iff.1 h
  have hrange := inRange_of_timesTenTo? (inRange_of_ofRatio? Nat.one_pos hx) hz
  exact ⟨hrange.significand_lt, hrange.exponent_le⟩

/-- Two roundings lead out of range only from the last few values on. -/
theorem exists_scale? (hsignificand : significand ≤ significandLimit)
    (h : (significand * 10 ^ exponent : ℚ) ≤ (2 ^ 53 - 7 / 2) * 2 ^ greatestExponent) :
    ∃ y, scale? negative significand exponent = some y := by
  obtain ⟨x, hx⟩ : ∃ x, ofNat? significand = some x := by
    have hlimit : significandLimit ≤ 10 ^ 20 := by decide
    refine Option.isSome_iff_exists.1 (isSome_ofRatio? Nat.one_pos ?_)
    rw [Nat.cast_one, div_one]
    exact le_trans (Nat.cast_le.2 (hsignificand.trans hlimit))
      (ten_pow_le_greatest_iff.2 (by decide))
  suffices hscaled : ∃ y, timesTenTo? x exponent = some y by
    obtain ⟨y, hy⟩ := hscaled
    rw [scale?_eq_bind, hx, Option.bind_some, hy]
    exact ⟨_, rfl⟩
  unfold timesTenTo?
  split_ifs with hzero hexponent hlarge
  · exact ⟨x, rfl⟩
  · obtain ⟨p, hp⟩ := exists_powerOfTen? (n := exponent.toNat) (by omega)
    rw [hp, Option.bind_some]
    refine Option.isSome_iff_exists.1 (isSome_mul? ?_)
    have hpow : (10 : ℚ) ^ exponent = 10 ^ exponent.toNat := by
      rw [← zpow_natCast, Int.toNat_of_nonneg hexponent]
    calc x.magnitude * p.magnitude
        ≤ (significand * (1 + 1 / 2 ^ 53)) * (10 ^ exponent.toNat * (1 + 1 / 2 ^ 53)) :=
          mul_le_mul (magnitude_le_of_ofNat? hx) (magnitude_le_of_powerOfTen? hp)
            p.magnitude_nonneg (by positivity)
      _ = significand * 10 ^ exponent * (1 + 1 / 2 ^ 53) ^ 2 := by rw [hpow]; ring
      _ ≤ (2 ^ 53 - 7 / 2) * 2 ^ greatestExponent * (1 + 1 / 2 ^ 53) ^ 2 :=
          mul_le_mul_of_nonneg_right h (by positivity)
      _ = (2 ^ 53 - 7 / 2) * (1 + 1 / 2 ^ 53) ^ 2 * 2 ^ greatestExponent := by ring
      _ ≤ greatest := mul_le_mul_of_nonneg_right (by norm_num) (two_zpow_pos _).le
  · -- a significand that is not zero leaves no room for such an exponent
    exfalso
    have hone : (1 : ℚ) ≤ significand := by
      refine Nat.one_le_cast.2 (Nat.one_le_iff_ne_zero.2 ?_)
      rintro rfl
      cases hx
      exact hzero rfl
    have hpow : (10 : ℚ) ^ exponent = ((10 ^ exponent.toNat : Nat) : ℚ) := by
      rw [Nat.cast_pow, ← zpow_natCast, Int.toNat_of_nonneg hexponent]
      norm_num
    have hle : ((10 ^ exponent.toNat : Nat) : ℚ) ≤ greatest :=
      calc ((10 ^ exponent.toNat : Nat) : ℚ) ≤ significand * 10 ^ exponent := by
            rw [hpow]
            exact le_mul_of_one_le_left (Nat.cast_nonneg _) hone
        _ ≤ (2 ^ 53 - 7 / 2) * 2 ^ greatestExponent := h
        _ ≤ greatest := mul_le_mul_of_nonneg_right (by norm_num) (two_zpow_pos _).le
    have := ten_pow_le_greatest_iff.1 hle
    omega
  · obtain ⟨y, hy, -⟩ := exists_scaleDown? 4 (inRange_of_ofRatio? Nat.one_pos hx) exponent.natAbs
    exact ⟨y, hy⟩

/-- A fraction is always made. -/
theorem exists_scale?_of_nonpos (hsignificand : significand ≤ significandLimit)
    (hexponent : exponent ≤ 0) : ∃ y, scale? negative significand exponent = some y := by
  refine exists_scale? hsignificand ?_
  have hlimit : (significand : ℚ) ≤ 2 ^ 64 := by
    have hle : significand ≤ 2 ^ 64 := hsignificand.trans (by decide)
    exact_mod_cast hle
  calc (significand * 10 ^ exponent : ℚ) ≤ significand * 1 :=
        mul_le_mul_of_nonneg_left (zpow_le_one_of_nonpos₀ (by norm_num) hexponent)
          (Nat.cast_nonneg _)
    _ ≤ (2 ^ 53 - 7 / 2) * 2 ^ (12 : ℤ) := by
        have hroom : (2 ^ 64 : ℚ) ≤ (2 ^ 53 - 7 / 2) * 2 ^ (12 : ℤ) := by norm_num
        linarith
    _ ≤ (2 ^ 53 - 7 / 2) * 2 ^ greatestExponent :=
        mul_le_mul_of_nonneg_left (zpow_le_zpow_right₀ (by norm_num) (by decide)) (by norm_num)

end Scale

/-! ### The range of what is read -/

/-- An integer of 64 bits, or a float in range. -/
def Number.InRange : Number → Prop
  | .natural n => n ≤ significandLimit
  | .negative n => 0 < n ∧ n ≤ 2 ^ 63
  | .float x => x.InRange

section Range

variable {negative hasExponent : Bool} {text rest whole fraction : List Char} {exponent : Int}
  {n : Number}

theorem inRange_of_integer? {significand : Nat} (hle : significand ≤ significandLimit)
    (h : integer? negative significand = some n) : n.InRange := by
  unfold integer? at h
  split_ifs at h with hnegative hsmall
  · cases h
    exact hsmall
  · obtain ⟨x, hx, rfl⟩ := Option.map_eq_some_iff.1 h
    exact inRange_of_scale? hx
  · cases h
    exact hle

theorem inRange_of_numberOf? (h : numberOf? negative whole fraction exponent hasExponent = some n) :
    n.InRange := by
  unfold numberOf? at h
  dsimp only at h
  split_ifs at h
  · exact inRange_of_integer? (gather_le (Nat.zero_le _)) h
  · obtain ⟨x, hx, rfl⟩ := Option.map_eq_some_iff.1 h
    exact inRange_of_scale? hx

/-- Whatever is read is in range. -/
theorem inRange_of_number? (h : number? text = some (n, rest)) : n.InRange := by
  unfold number? at h
  split at h
  all_goals
    obtain ⟨-, fraction, left, exponent, hasExponent, -, -, hn⟩ := unsignedNumber?_eq_some_iff.1 h
    exact inRange_of_numberOf? hn

end Range

end Json

end Branding
