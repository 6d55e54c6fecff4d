import Mathlib
import Branding.Binary64

/-!
# Rounding to binary64

The nearest value to a ratio is found on natural numbers. Here it is compared with the ratio as a
rational number. What matters to a reader of decimals is the upper end of the range: a ratio that is
not above the greatest value has a nearest value, and a natural number grows by no more than one
part in `2 ^ 53` when it is rounded.

## Main definitions

* `Binary64.magnitude` — a value without its sign, as a rational number
* `Binary64.InRange` — a significand below `2 ^ 53` and an exponent that is not above the greatest
* `Binary64.greatest` — the greatest magnitude

## Main results

* `Binary64.isSome_ofRatio?` — a ratio that is not above the greatest magnitude has a nearest value
* `Binary64.inRange_of_ofRatio?` — the nearest value is in range
* `Binary64.magnitude_le_of_ofNat?`, `Binary64.one_le_magnitude_of_ofNat?` — the nearest value to a
  natural number, from above and from below
* `Binary64.isSome_mul?`, `Binary64.isSome_div?` — products and quotients that are in range
-/

namespace Branding

namespace Binary64

variable {negative : Bool} {num den : Nat} {e : Int}

theorem cast_twoTo (n : Nat) : ((twoTo n : Nat) : ℚ) = 2 ^ n := by
  rw [show twoTo n = 2 ^ n from rfl]
  push_cast
  rfl

theorem cast_tenTo (n : Nat) : ((tenTo n : Nat) : ℚ) = 10 ^ n := by
  rw [show tenTo n = 10 ^ n from rfl]
  push_cast
  rfl

theorem two_zpow_pos (e : Int) : (0 : ℚ) < 2 ^ e := zpow_pos (by norm_num) e

/-! ### Rounding a quotient -/

/-- A rounded quotient is at most half a unit above. -/
theorem two_mul_roundDiv_mul_le (num den : Nat) : 2 * (roundDiv num den * den) ≤ 2 * num + den := by
  have hnum : den * (num / den) + num % den = num := Nat.div_add_mod num den
  have hup : 2 * ((num / den + 1) * den) = 2 * (den * (num / den)) + 2 * den := by ring
  have hdown : 2 * (num / den * den) = 2 * (den * (num / den)) := by ring
  unfold roundDiv
  dsimp only
  split_ifs <;> omega

theorem roundDiv_le {n : Nat} (h : num ≤ n * den) : roundDiv num den ≤ n := by
  have hnum : den * (num / den) + num % den = num := Nat.div_add_mod num den
  have hq : num / den ≤ n := Nat.div_le_of_le_mul (by rwa [Nat.mul_comm] at h)
  -- above the whole quotient there is something left
  have hr : 0 < num % den → num / den + 1 ≤ n := by
    intro hpos
    have hlt : den * (num / den) < den * n := by rw [Nat.mul_comm den n]; omega
    exact Nat.lt_of_mul_lt_mul_left hlt
  unfold roundDiv
  dsimp only
  split_ifs with h₁ h₂ h₃
  · exact hq
  · exact hr (by omega)
  · exact hq
  · refine hr ?_
    rcases Nat.eq_zero_or_pos den with rfl | hden
    · simp at h₃
    · omega

theorem le_roundDiv {n : Nat} (hden : 0 < den) (h : n * den ≤ num) : n ≤ roundDiv num den := by
  have hq : n ≤ num / den := (Nat.le_div_iff_mul_le hden).2 h
  unfold roundDiv
  dsimp only
  split_ifs <;> omega

/-! ### Counting in units -/

/-- A count is a rounded quotient of numbers that stand to each other as the ratio to the unit. -/
theorem countIn_eq (num : Nat) (hden : 0 < den) (e : Int) :
    ∃ a b : Nat, 0 < b ∧ countIn num den e = roundDiv a b ∧
    (a : ℚ) = num / den / 2 ^ e * b := by
  have hden' : (den : ℚ) ≠ 0 := by exact_mod_cast hden.ne'
  unfold countIn
  split_ifs with he
  · refine ⟨num, den * twoTo e.toNat, Nat.mul_pos hden (Nat.two_pow_pos _), rfl, ?_⟩
    have hpow : (2 : ℚ) ^ e = 2 ^ e.toNat := by
      rw [← zpow_natCast, Int.toNat_of_nonneg he]
    rw [Nat.cast_mul, cast_twoTo, hpow]
    field_simp
  · refine ⟨num * twoTo (-e).toNat, den, hden, rfl, ?_⟩
    have hpow : (2 : ℚ) ^ e = (2 ^ (-e).toNat)⁻¹ := by
      rw [← zpow_natCast, Int.toNat_of_nonneg (by omega), zpow_neg, inv_inv]
    rw [Nat.cast_mul, cast_twoTo, hpow]
    field_simp

/-- A count is at most half a unit above the ratio. -/
theorem countIn_mul_le (num : Nat) (hden : 0 < den) (e : Int) :
    (countIn num den e : ℚ) * 2 ^ e ≤ num / den + 2 ^ e / 2 := by
  obtain ⟨a, b, hb, hcount, ha⟩ := countIn_eq num hden e
  have hb' : (0 : ℚ) < b := by exact_mod_cast hb
  have hpow := two_zpow_pos e
  have hle : (2 : ℚ) * (roundDiv a b * b) ≤
    2 * a + b := by exact_mod_cast two_mul_roundDiv_mul_le a b
  have hquot : (roundDiv a b : ℚ) ≤ num / den / 2 ^ e + 1 / 2 := by
    rw [ha] at hle
    nlinarith
  calc (countIn num den e : ℚ) * 2 ^ e = roundDiv a b * 2 ^ e := by rw [hcount]
    _ ≤ (num / den / 2 ^ e + 1 / 2) * 2 ^ e := mul_le_mul_of_nonneg_right hquot hpow.le
    _ = num / den + 2 ^ e / 2 := by field_simp

theorem countIn_le (hden : 0 < den) {n : Nat} (h : (num / den : ℚ) ≤ n * 2 ^ e) :
    countIn num den e ≤ n := by
  obtain ⟨a, b, hb, hcount, ha⟩ := countIn_eq num hden e
  rw [hcount]
  refine roundDiv_le ?_
  have hle : (a : ℚ) ≤ n * b := by
    rw [ha]
    exact mul_le_mul_of_nonneg_right ((div_le_iff₀ (two_zpow_pos e)).2 h) (Nat.cast_nonneg b)
  exact_mod_cast hle

theorem le_countIn (hden : 0 < den) {n : Nat} (h : (n * 2 ^ e : ℚ) ≤ num / den) :
    n ≤ countIn num den e := by
  obtain ⟨a, b, hb, hcount, ha⟩ := countIn_eq num hden e
  rw [hcount]
  refine le_roundDiv hb ?_
  have hle : (n * b : ℚ) ≤ a := by
    rw [ha]
    exact mul_le_mul_of_nonneg_right ((le_div_iff₀ (two_zpow_pos e)).2 h) (Nat.cast_nonneg b)
  exact_mod_cast hle

theorem fitsUnit_iff (hden : 0 < den) :
    fitsUnit num den e = true ↔ (num / den : ℚ) < 2 ^ (e + 53) := by
  have hden' : (0 : ℚ) < den := by exact_mod_cast hden
  unfold fitsUnit
  split_ifs with he
  · have hpow : (2 : ℚ) ^ (e + 53) = (twoTo (e + 53).toNat : Nat) := by
      rw [cast_twoTo, ← zpow_natCast, Int.toNat_of_nonneg he]
    rw [decide_eq_true_iff, hpow, div_lt_iff₀ hden', mul_comm]
    exact_mod_cast Iff.rfl
  · have hpow : (2 : ℚ) ^ (e + 53) = ((twoTo (-(e + 53)).toNat : Nat) : ℚ)⁻¹ := by
      rw [cast_twoTo, ← zpow_natCast, Int.toNat_of_nonneg (by omega), zpow_neg, inv_inv]
    have hpos : (0 : ℚ) < (twoTo (-(e + 53)).toNat : Nat) := by
      exact_mod_cast Nat.two_pow_pos _
    rw [decide_eq_true_iff, hpow, div_lt_iff₀ hden', ← div_eq_inv_mul, lt_div_iff₀ hpos]
    exact_mod_cast Iff.rfl

/-! ### The unit of a ratio -/

/-- The power of two that a ratio is counted in. -/
def unitOf (num den : Nat) : Int :=
  let low : Int := (Nat.log2 num : Int) - Nat.log2 den - 53
  max leastExponent (if fitsUnit num den low then low else low + 1)

/-- A count of `2 ^ 53` is one of `2 ^ 52` in the next unit. -/
theorem ofRatio?_of_ne_zero (hnum : num ≠ 0) : ofRatio? negative num den =
    if countIn num den (unitOf num den) = 2 ^ 53 then
      if greatestExponent < unitOf num den + 1 then none
      else some ⟨negative, 2 ^ 52, unitOf num den + 1⟩
    else if countIn num den (unitOf num den) = 0 then some (zero negative)
    else if greatestExponent < unitOf num den then none
    else some ⟨negative, countIn num den (unitOf num den), unitOf num den⟩ := by
  have htwo : twoTo 53 = 2 ^ 53 := rfl
  rw [ofRatio?, if_neg hnum]
  dsimp only
  rw [show max leastExponent _ = unitOf num den from rfl, htwo]
  by_cases hcount : countIn num den (unitOf num den) = 2 ^ 53
  · rw [if_pos hcount, if_pos hcount]
    rfl
  · rw [if_neg hcount, if_neg hcount]

section Log

variable (hnum : num ≠ 0) (hden : 0 < den)
include hden

theorem lt_two_zpow_log2 :
    (num / den : ℚ) < 2 ^ ((Nat.log2 num : Int) - Nat.log2 den + 1) := by
  have hden' : (0 : ℚ) < den := by exact_mod_cast hden
  have hup : (num : ℚ) < 2 ^ (Nat.log2 num + 1) := by exact_mod_cast Nat.lt_log2_self
  have hdown : (2 ^ Nat.log2 den : ℚ) ≤ den := by exact_mod_cast Nat.log2_self_le hden.ne'
  rw [div_lt_iff₀ hden']
  calc (num : ℚ) < 2 ^ (Nat.log2 num + 1) := hup
    _ = 2 ^ ((Nat.log2 num : Int) - Nat.log2 den + 1) * 2 ^ Nat.log2 den := by
        rw [← zpow_natCast, ← zpow_natCast, ← zpow_add₀ (by norm_num)]
        congr 1
        push_cast
        ring
    _ ≤ 2 ^ ((Nat.log2 num : Int) - Nat.log2 den + 1) * den :=
        mul_le_mul_of_nonneg_left hdown (two_zpow_pos _).le

include hnum

theorem two_zpow_log2_lt :
    (2 : ℚ) ^ ((Nat.log2 num : Int) - Nat.log2 den - 1) < num / den := by
  have hden' : (0 : ℚ) < den := by exact_mod_cast hden
  have hup : (den : ℚ) < 2 ^ (Nat.log2 den + 1) := by exact_mod_cast Nat.lt_log2_self
  have hdown : (2 ^ Nat.log2 num : ℚ) ≤ num := by exact_mod_cast Nat.log2_self_le hnum
  rw [lt_div_iff₀ hden']
  calc (2 : ℚ) ^ ((Nat.log2 num : Int) - Nat.log2 den - 1) * den
      < 2 ^ ((Nat.log2 num : Int) - Nat.log2 den - 1) * 2 ^ (Nat.log2 den + 1) :=
        mul_lt_mul_of_pos_left hup (two_zpow_pos _)
    _ = 2 ^ Nat.log2 num := by
        rw [← zpow_natCast, ← zpow_natCast, ← zpow_add₀ (by norm_num)]
        congr 1
        push_cast
        ring
    _ ≤ num := hdown

omit hnum in
/-- The ratio is below `2 ^ 53` units. -/
theorem lt_two_zpow_unitOf : (num / den : ℚ) < 2 ^ (unitOf num den + 53) := by
  unfold unitOf
  dsimp only
  split_ifs with hfits
  · exact ((fitsUnit_iff hden).1 hfits).trans_le
      (zpow_le_zpow_right₀ (by norm_num) (by omega))
  · exact (lt_two_zpow_log2 hden).trans_le (zpow_le_zpow_right₀ (by norm_num) (by omega))

/-- Unless the unit is the least one, the ratio is not below `2 ^ 52` units. -/
theorem two_zpow_unitOf_le (h : leastExponent < unitOf num den) :
    (2 : ℚ) ^ (unitOf num den + 52) ≤ num / den := by
  revert h
  unfold unitOf
  dsimp only
  split_ifs with hfits <;> intro h
  · rw [max_eq_right (by omega)]
    refine le_trans (zpow_le_zpow_right₀ (by norm_num) ?_) (two_zpow_log2_lt hnum hden).le
    omega
  · rw [max_eq_right (by omega)]
    rw [fitsUnit_iff hden, not_lt] at hfits
    refine le_trans (zpow_le_zpow_right₀ (by norm_num) ?_) hfits
    omega

end Log

/-! ### The nearest value -/

/-- A value without its sign. -/
def magnitude (x : Binary64) : ℚ := x.significand * 2 ^ x.exponent

/-- What is finite: no significand reaches `2 ^ 53`, and no exponent goes above the greatest. -/
structure InRange (x : Binary64) : Prop where
  significand_lt : x.significand < 2 ^ 53
  exponent_le : x.exponent ≤ greatestExponent

/-- The greatest magnitude. -/
def greatest : ℚ := (2 ^ 53 - 1) * 2 ^ greatestExponent

theorem inRange_zero (negative : Bool) : (zero negative).InRange where
  significand_lt := show 0 < 2 ^ 53 by norm_num
  exponent_le := show leastExponent ≤ greatestExponent by decide

theorem InRange.magnitude_le {x : Binary64} (h : x.InRange) : x.magnitude ≤ greatest := by
  have hsig : (x.significand : ℚ) ≤ 2 ^ 53 - 1 := by
    have hlt : (x.significand : ℚ) + 1 ≤ 2 ^ 53 := by exact_mod_cast h.significand_lt
    linarith
  calc x.magnitude ≤ (2 ^ 53 - 1) * 2 ^ x.exponent :=
        mul_le_mul_of_nonneg_right hsig (two_zpow_pos _).le
    _ ≤ greatest :=
        mul_le_mul_of_nonneg_left (zpow_le_zpow_right₀ (by norm_num) h.exponent_le) (by norm_num)

theorem magnitude_nonneg (x : Binary64) : 0 ≤ x.magnitude :=
  mul_nonneg (Nat.cast_nonneg _) (two_zpow_pos _).le

theorem inRange_of_ofRatio? {x : Binary64} (hden : 0 < den)
    (h : ofRatio? negative num den = some x) :
    x.InRange := by
  by_cases hnum : num = 0
  · rw [ofRatio?, if_pos hnum] at h
    cases h
    exact inRange_zero negative
  have hcount : countIn num den (unitOf num den) ≤ 2 ^ 53 := by
    refine countIn_le hden (le_of_lt (lt_of_lt_of_eq (lt_two_zpow_unitOf hden) ?_))
    rw [add_comm, zpow_add₀ (by norm_num)]
    norm_cast
  rw [ofRatio?_of_ne_zero hnum] at h
  split_ifs at h with h₁ h₂ h₃ h₄
  · cases h
    exact ⟨by norm_num, not_lt.1 h₂⟩
  · cases h
    exact inRange_zero negative
  · cases h
    exact ⟨lt_of_le_of_ne hcount h₁, not_lt.1 h₄⟩

/-- A ratio that is not above the greatest magnitude has a nearest value. -/
theorem isSome_ofRatio? (hden : 0 < den) (h : (num / den : ℚ) ≤ greatest) :
    (ofRatio? negative num den).isSome = true := by
  by_cases hnum : num = 0
  · rw [ofRatio?, if_pos hnum]
    rfl
  -- the unit is not above the greatest exponent, or else the ratio would be
  have hunit : unitOf num den ≤ greatestExponent := by
    by_contra habove
    have hleast : leastExponent < unitOf num den := by
      have : leastExponent < greatestExponent := by decide
      omega
    have hle : (2 : ℚ) ^ (greatestExponent + 53) ≤ greatest :=
      calc (2 : ℚ) ^ (greatestExponent + 53) ≤ 2 ^ (unitOf num den + 52) :=
            zpow_le_zpow_right₀ (by norm_num) (by omega)
        _ ≤ num / den := two_zpow_unitOf_le hnum hden hleast
        _ ≤ greatest := h
    rw [greatest, add_comm, zpow_add₀ (by norm_num)] at hle
    have hpos := two_zpow_pos greatestExponent
    have hlt : ((2 ^ 53 - 1) * 2 ^ greatestExponent : ℚ) < 2 ^ (53 : ℤ) * 2 ^ greatestExponent :=
      mul_lt_mul_of_pos_right (by norm_num) hpos
    linarith
  rw [ofRatio?_of_ne_zero hnum]
  split_ifs with h₁ h₂ h₃ h₄
  · -- `2 ^ 53` of the greatest unit would be above, too
    exfalso
    have heq : unitOf num den = greatestExponent := by omega
    have hle : countIn num den (unitOf num den) ≤ 2 ^ 53 - 1 := by
      refine countIn_le hden (le_of_le_of_eq h ?_)
      rw [greatest, heq]
      norm_num
    omega
  · rfl
  · rfl
  · omega
  · rfl

/-! ### Natural numbers, products and quotients -/

section Natural

variable {n : Nat} {x : Binary64}

/-- A natural number is counted in units of which it has at least `2 ^ 52`. -/
theorem unitOf_one_bounds (hn : n ≠ 0) :
    0 ≤ unitOf n 1 + 52 ∧ (2 : ℚ) ^ (unitOf n 1 + 52) ≤ n := by
  have hone : (1 : ℚ) ≤ n := by exact_mod_cast Nat.one_le_iff_ne_zero.2 hn
  have hlt : (n : ℚ) < 2 ^ (unitOf n 1 + 53) := by
    simpa using lt_two_zpow_unitOf Nat.one_pos
  have hpos : 0 < unitOf n 1 + 53 := by
    by_contra hneg
    have hle : (2 : ℚ) ^ (unitOf n 1 + 53) ≤ 1 :=
      zpow_le_one_of_nonpos₀ (by norm_num) (by omega)
    linarith
  have hleast : leastExponent < unitOf n 1 := by
    have : leastExponent = -1074 := rfl
    omega
  exact ⟨by omega, by simpa using two_zpow_unitOf_le hn Nat.one_pos hleast⟩

theorem magnitude_of_ofNat? (hn : n ≠ 0) (h : ofNat? n = some x) :
    x.magnitude = countIn n 1 (unitOf n 1) * 2 ^ unitOf n 1 := by
  rw [ofNat?, ofRatio?_of_ne_zero hn] at h
  split_ifs at h with h₁ h₂ h₃ h₄
  · cases h
    rw [magnitude, h₁, zpow_add₀ (by norm_num)]
    push_cast
    ring
  · cases h
    rw [magnitude, h₃]
    simp [zero]
  · cases h
    rfl

theorem magnitude_le_of_ofNat? (h : ofNat? n = some x) : x.magnitude ≤ n * (1 + 1 / 2 ^ 53) := by
  by_cases hn : n = 0
  · subst hn
    cases h
    simp [zero, magnitude]
  have hle := countIn_mul_le n Nat.one_pos (unitOf n 1)
  have hlow := (unitOf_one_bounds hn).2
  rw [zpow_add₀ (by norm_num)] at hlow
  rw [magnitude_of_ofNat? hn h]
  norm_num at hle hlow ⊢
  linarith

theorem one_le_magnitude_of_ofNat? (hn : n ≠ 0) (h : ofNat? n = some x) : 1 ≤ x.magnitude := by
  obtain ⟨hunit, hlow⟩ := unitOf_one_bounds hn
  have hcount : 2 ^ 52 ≤ countIn n 1 (unitOf n 1) := by
    refine le_countIn Nat.one_pos ?_
    rw [zpow_add₀ (by norm_num)] at hlow
    norm_num at hlow ⊢
    linarith
  calc (1 : ℚ) ≤ 2 ^ (unitOf n 1 + 52) := one_le_zpow₀ (by norm_num) hunit
    _ = (2 ^ 52 : Nat) * 2 ^ unitOf n 1 := by
        rw [zpow_add₀ (by norm_num), mul_comm]
        norm_num
    _ ≤ countIn n 1 (unitOf n 1) * 2 ^ unitOf n 1 :=
        mul_le_mul_of_nonneg_right (by exact_mod_cast hcount) (two_zpow_pos _).le
    _ = x.magnitude := (magnitude_of_ofNat? hn h).symm

end Natural

variable {x y z : Binary64}

theorem ratio_pos (x : Binary64) : 0 < x.ratio.2 := by
  unfold ratio
  split_ifs
  · exact Nat.one_pos
  · exact Nat.two_pow_pos _

theorem ratio_div (x : Binary64) : (x.ratio.1 : ℚ) / x.ratio.2 = x.magnitude := by
  unfold ratio magnitude
  split_ifs with he
  · have hpow : (2 : ℚ) ^ x.exponent = 2 ^ x.exponent.toNat := by
      rw [← zpow_natCast, Int.toNat_of_nonneg he]
    rw [Nat.cast_mul, cast_twoTo, hpow, Nat.cast_one, div_one]
  · have hpow : (2 : ℚ) ^ x.exponent = (2 ^ (-x.exponent).toNat)⁻¹ := by
      rw [← zpow_natCast, Int.toNat_of_nonneg (by omega), zpow_neg, inv_inv]
    rw [cast_twoTo, hpow, div_eq_mul_inv]

theorem mul?_eq_ofRatio? (x y : Binary64) :
    x.mul? y = ofRatio? false (x.ratio.1 * y.ratio.1) (x.ratio.2 * y.ratio.2) := rfl

theorem div?_eq_ofRatio? (x y : Binary64) :
    x.div? y = ofRatio? false (x.ratio.1 * y.ratio.2) (x.ratio.2 * y.ratio.1) := rfl

theorem isSome_mul? (h : x.magnitude * y.magnitude ≤ greatest) : (x.mul? y).isSome = true := by
  rw [mul?_eq_ofRatio?]
  refine isSome_ofRatio? (Nat.mul_pos x.ratio_pos y.ratio_pos) ?_
  rwa [Nat.cast_mul, Nat.cast_mul, mul_div_mul_comm, ratio_div, ratio_div]

theorem inRange_of_mul? (h : x.mul? y = some z) : z.InRange :=
  inRange_of_ofRatio? (Nat.mul_pos x.ratio_pos y.ratio_pos) h

theorem ratio_fst_pos (hy : 0 < y.magnitude) : 0 < y.ratio.1 := by
  rw [← ratio_div] at hy
  by_contra hzero
  rw [Nat.eq_zero_of_not_pos hzero] at hy
  simp at hy

theorem isSome_div? (hy : 0 < y.magnitude) (h : x.magnitude / y.magnitude ≤ greatest) :
    (x.div? y).isSome = true := by
  rw [div?_eq_ofRatio?]
  refine isSome_ofRatio? (Nat.mul_pos x.ratio_pos (ratio_fst_pos hy)) ?_
  rwa [← ratio_div x, ← ratio_div y, div_div_div_eq, ← Nat.cast_mul, ← Nat.cast_mul] at h

theorem inRange_of_div? (hy : 0 < y.magnitude) (h : x.div? y = some z) : z.InRange :=
  inRange_of_ofRatio? (Nat.mul_pos x.ratio_pos (ratio_fst_pos hy)) h

end Binary64

end Branding
