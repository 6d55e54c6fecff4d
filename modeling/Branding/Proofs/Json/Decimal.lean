import Mathlib
import Branding.Json.Printer
import Branding.Proofs.Json.Number

/-!
# Numbers are read back

An integer that is written is read back as it was. A float is written in the fewest digits that
round to it, but the reader scales them in several rounded steps and may miss the float by a few
units in the last place. So it is not shown that the float comes back, but that some float does: the
text is a number with a fraction or an exponent, and it does not lie so far up that the steps of the
reader leave the range. For the three greatest floats this is checked by reading them.

## Main definitions

* `Binary64.reread`, `Json.Number.reread` — what a number has become once it is written and read

## Main results

* `Json.number?_text` — a number in range is read back as `Json.Number.reread` of it
-/

namespace Branding

namespace Json

/-! ### Digits of natural numbers -/

section Digits

variable {negative : Bool} {n : Nat}

theorem isDigit_of_mem_toDigits {c : Char} (h : c ∈ Nat.toDigits 10 n) : c.isDigit = true :=
  Nat.isDigit_of_mem_toDigits (by decide) (by decide) h

theorem head?_toDigits_ne (hn : n ≠ 0) : (Nat.toDigits 10 n).head? ≠ some '0' := by
  induction n using Nat.strong_induction_on with
  | _ n ih =>
    rcases Nat.lt_or_ge n 10 with hsmall | hlarge
    · have hdigit : ∀ m < 10, m ≠ 0 → [m.digitChar].head? ≠ some '0' := by decide
      rw [Nat.toDigits_of_lt_base hsmall]
      exact hdigit n hsmall hn
    · rw [Nat.toDigits_of_base_le (by decide) hlarge,
        List.head?_append_of_ne_nil _ Nat.toDigits_ne_nil]
      exact ih (n / 10) (Nat.div_lt_self (by omega) (by decide)) (by omega)

theorem isWhole_toDigits (n : Nat) : IsWhole (Nat.toDigits 10 n) := by
  refine ⟨Nat.toDigits_ne_nil, fun ⟨hzero, hlength⟩ => ?_⟩
  rcases eq_or_ne n 0 with rfl | hn
  · exact absurd hlength (by decide)
  · exact head?_toDigits_ne hn hzero

theorem takeWhile_eq_self {text : List Char} (h : ∀ c ∈ text, c.isDigit = true) :
    text.takeWhile Char.isDigit = text :=
  List.takeWhile_eq_self_iff.2 h

theorem dropWhile_eq_nil {text : List Char} (h : ∀ c ∈ text, c.isDigit = true) :
    text.dropWhile Char.isDigit = [] :=
  List.dropWhile_eq_nil_iff.2 h

theorem unsignedNumber?_toDigits (hn : n ≤ significandLimit) :
    unsignedNumber? negative (Nat.toDigits 10 n) =
      (integer? negative n).map fun number => (number, []) := by
  have hdigits : ∀ c ∈ Nat.toDigits 10 n, c.isDigit = true := fun _ => isDigit_of_mem_toDigits
  have hvalue : Nat.ofDigitChars 10 (Nat.toDigits 10 n) 0 = n := Nat.ofDigitChars_ten_toDigits
  have hgather : gather 0 (Nat.toDigits 10 n) = (n, []) := by
    rw [gather_of_le (by rwa [hvalue]), hvalue]
  have hwhole := takeWhile_eq_self hdigits
  have hrest := dropWhile_eq_nil hdigits
  rw [unsignedNumber?_eq_map (by rw [hwhole]; exact isWhole_toDigits n)
    (by rw [hrest]; rfl) (show exponent? [] = _ from rfl), hwhole, numberOf?, hgather]
  rfl

theorem number?_toDigits (hn : n ≤ significandLimit) :
    number? (Nat.toDigits 10 n) = some (.natural n, []) := by
  have h : unsignedNumber? false _ = _ := unsignedNumber?_toDigits hn
  obtain ⟨c, rest, hcons⟩ := List.exists_cons_of_ne_nil (Nat.toDigits_ne_nil (n := n) (b := 10))
  have hc : c ≠ '-' := by
    rintro rfl
    exact absurd (isDigit_of_mem_toDigits (n := n) (by rw [hcons]; exact List.mem_cons_self))
      (by decide)
  rw [hcons] at h ⊢
  rw [number?_of_ne hc, h]
  rfl

theorem number?_negative (hpos : 0 < n) (hn : n ≤ 2 ^ 63) :
    number? ('-' :: Nat.toDigits 10 n) = some (.negative n, []) := by
  have hlimit : n ≤ significandLimit := hn.trans (by decide)
  rw [number?, unsignedNumber?_toDigits hlimit, integer?, if_pos rfl, if_pos ⟨hpos, hn⟩]
  rfl

end Digits

end Json

/-! ### The shortest decimal -/

namespace Binary64

section Shortest

variable {x : Binary64} {count : Nat} {unit : Int}

/-- A power with any exponent as a ratio of natural numbers. -/
theorem powerRatio_eq {base up down : Nat} {e : Int} (hbase : 0 < base)
    (h : (if 0 ≤ e then (Nat.pow base e.toNat, 1) else (1, Nat.pow base (-e).toNat)) = (up, down)) :
    0 < up ∧ 0 < down ∧ (up : ℚ) = base ^ e * down := by
  have hne : (base : ℚ) ≠ 0 := by exact_mod_cast hbase.ne'
  split_ifs at h with he
  · cases h
    refine ⟨Nat.pow_pos hbase, Nat.one_pos, ?_⟩
    rw [show Nat.pow base e.toNat = base ^ e.toNat from rfl, Nat.cast_pow, ← zpow_natCast,
      Int.toNat_of_nonneg he, Nat.cast_one, mul_one]
  · cases h
    refine ⟨Nat.one_pos, Nat.pow_pos hbase, ?_⟩
    rw [show Nat.pow base (-e).toNat = base ^ (-e).toNat from rfl, Nat.cast_pow, ← zpow_natCast,
      Int.toNat_of_nonneg (by omega), ← zpow_add₀ hne, Nat.cast_one, add_neg_cancel, zpow_zero]

/-- What rounds to a value that is not zero is not zero, and at most half a unit above the value. -/
theorem le_of_roundsTo (hx : x.isZero = false) (h : x.roundsTo count unit = true) :
    count ≠ 0 ∧ (count * 10 ^ unit : ℚ) ≤ (x.significand + 1 / 2) * 2 ^ x.exponent := by
  have hsignificand : x.significand ≠ 0 := by simpa [isZero] using hx
  unfold roundsTo at h
  dsimp only at h
  generalize hten : (if 0 ≤ unit then (tenTo unit.toNat, 1) else (1, tenTo (-unit).toNat)) =
    ten at h
  generalize htwo : (if 0 ≤ x.exponent - 2 then (twoTo (x.exponent - 2).toNat, 1)
    else (1, twoTo (-(x.exponent - 2)).toNat)) = two at h
  generalize hbelow : (if x.significand = twoTo 52 ∧ leastExponent < x.exponent then 1 else 2) =
    below at h
  obtain ⟨tenUp, tenDown⟩ := ten
  obtain ⟨twoUp, twoDown⟩ := two
  obtain ⟨-, htenDown, hten⟩ := powerRatio_eq (by decide) hten
  obtain ⟨htwoUp, htwoDown, htwo⟩ := powerRatio_eq (by decide) htwo
  obtain ⟨hlow, hhigh⟩ : (4 * x.significand - below) * twoUp * tenDown ≤ count * tenUp * twoDown ∧
      count * tenUp * twoDown ≤ (4 * x.significand + 2) * twoUp * tenDown := by
    split_ifs at h
    · simpa using h
    · rw [Bool.and_eq_true, decide_eq_true_iff, decide_eq_true_iff] at h
      exact ⟨h.1.le, h.2.le⟩
  constructor
  · rintro rfl
    have hbelow' : below ≤ 2 := by
      rw [← hbelow]
      split_ifs <;> decide
    have hpos : 0 < (4 * x.significand - below) * twoUp * tenDown :=
      Nat.mul_pos (Nat.mul_pos (by omega) htwoUp) htenDown
    omega
  · have hscale : (0 : ℚ) < tenDown * twoDown := by exact_mod_cast Nat.mul_pos htenDown htwoDown
    have hle : (count * tenUp * twoDown : ℚ) ≤ (4 * x.significand + 2) * twoUp * tenDown := by
      exact_mod_cast hhigh
    rw [hten, htwo, zpow_sub₀ (by norm_num)] at hle
    push_cast at hle
    refine le_of_mul_le_mul_right ?_ hscale
    calc (count * 10 ^ unit : ℚ) * (tenDown * twoDown)
        = count * (10 ^ unit * tenDown) * twoDown := by ring
      _ ≤ (4 * x.significand + 2) * (2 ^ x.exponent / 2 ^ (2 : ℤ) * twoDown) * tenDown := hle
      _ = (x.significand + 1 / 2) * 2 ^ x.exponent * (tenDown * twoDown) := by
          norm_num
          ring

theorem roundsTo_of_onGrid? (h : x.onGrid? unit = some count) : x.roundsTo count unit = true := by
  unfold onGrid? at h
  dsimp only at h
  generalize (if 0 ≤ unit then (x.ratio.1, x.ratio.2 * tenTo unit.toNat)
    else (x.ratio.1 * tenTo (-unit).toNat, x.ratio.2)) = scaled at h
  split at h
  next hfloor hnext =>
    split_ifs at h
    · cases h
      exact hfloor
    · cases h
      exact hnext
  next hfloor _ =>
    cases h
    exact hfloor
  next _ hnext =>
    cases h
    exact hnext
  next => cases h

theorem exists_stripZeros_append (digits : List Char) :
    ∃ k, digits = stripZeros digits ++ List.replicate k '0' := by
  have hsplit := List.takeWhile_append_dropWhile (p := (· == '0')) (l := digits.reverse)
  have hzeros : digits.reverse.takeWhile (· == '0') =
      List.replicate (digits.reverse.takeWhile (· == '0')).length '0' := by
    refine List.eq_replicate_of_mem fun c hc => ?_
    simpa using List.mem_takeWhile_imp hc
  refine ⟨(digits.reverse.takeWhile (· == '0')).length, ?_⟩
  rw [stripZeros, ← List.reverse_replicate, ← hzeros, ← List.reverse_append, hsplit,
    List.reverse_reverse]

/-- The digits of a value begin with one that is not zero, and the decimal they stand for is at most
half a unit above the value. If none were found in seventeen digits, there would be a zero. -/
theorem shortest_cases (hx : x.isZero = false) : x.shortest = (['0'], 0) ∨
    ∃ d digits first, x.shortest = (d :: digits, first) ∧
      (∀ c ∈ d :: digits, c.isDigit = true) ∧ d ≠ '0' ∧
      (Nat.ofDigitChars 10 (d :: digits) 0 * 10 ^ (first - digits.length) : ℚ) ≤
        (x.significand + 1 / 2) * 2 ^ x.exponent := by
  unfold shortest
  dsimp only
  split
  next => exact Or.inl rfl
  next count unit hfound =>
    right
    obtain ⟨n, -, hn⟩ := List.exists_of_findSome?_eq_some hfound
    obtain ⟨count', hgrid, heq⟩ := Option.map_eq_some_iff.1 hn
    cases heq
    obtain ⟨hcount, hle⟩ := le_of_roundsTo hx (roundsTo_of_onGrid? hgrid)
    obtain ⟨k, hk⟩ := exists_stripZeros_append (Nat.toDigits 10 count)
    have hhead := Json.head?_toDigits_ne hcount
    obtain ⟨d, digits, hstrip⟩ : ∃ d digits, stripZeros (Nat.toDigits 10 count) = d :: digits := by
      refine List.exists_cons_of_ne_nil fun hnil => ?_
      rw [hnil, List.nil_append] at hk
      cases k with
      | zero => exact Nat.toDigits_ne_nil hk
      | succ k => exact hhead (by rw [hk]; rfl)
    rw [hstrip] at hk ⊢
    refine ⟨d, digits, _, rfl, fun c hc => ?_, ?_, ?_⟩
    · exact Json.isDigit_of_mem_toDigits (by rw [hk]; exact List.mem_append_left _ hc)
    · rintro rfl
      exact hhead (by rw [hk]; rfl)
    · have hvalue : Nat.ofDigitChars 10 (d :: digits) 0 * 10 ^ k = count := by
        rw [Nat.mul_comm, ← Nat.ofDigitChars_replicate_zero, ← Nat.ofDigitChars_append, ← hk,
          Nat.ofDigitChars_ten_toDigits]
      have hlength : (Nat.toDigits 10 count).length = digits.length + 1 + k := by
        rw [hk, List.length_append, List.length_replicate, List.length_cons]
      refine le_of_eq_of_le ?_ hle
      rw [hlength, ← hvalue]
      push_cast
      rw [mul_assoc, ← zpow_natCast, ← zpow_add₀ (by norm_num)]
      congr 2
      ring

end Shortest

end Binary64

/-! ### Floats -/

namespace Json

section Float

variable {negative : Bool} {whole fraction digits : List Char} {d : Char} {first : Int}

/-- Digits in front of a text that goes on with something else. -/
theorem cut_append {whole rest : List Char} (hwhole : ∀ c ∈ whole, c.isDigit = true)
    (hrest : ∀ c ∈ rest.head?, c.isDigit = false) :
    (whole ++ rest).takeWhile Char.isDigit = whole ∧
      (whole ++ rest).dropWhile Char.isDigit = rest := by
  rw [takeWhile_append_of_head hrest, dropWhile_append_of_head hrest, takeWhile_eq_self hwhole,
    dropWhile_eq_nil hwhole, List.nil_append]
  exact ⟨rfl, rfl⟩

theorem fraction?_point (rest : List Char) (hne : digits ≠ [])
    (hdigits : ∀ c ∈ digits, c.isDigit = true) (hrest : ∀ c ∈ rest.head?, c.isDigit = false) :
    fraction? ('.' :: digits ++ rest) = some (digits, rest) := by
  obtain ⟨htake, hdrop⟩ := cut_append hdigits hrest
  rw [List.cons_append, fraction?, htake, hdrop]
  exact if_neg (by rwa [List.isEmpty_iff])

/-- A few digits before the point, and any number of them after it, make a float. -/
theorem exists_unsignedNumber?_point {whole fraction : List Char} (hwhole : IsWhole whole)
    (hdigits : ∀ c ∈ whole, c.isDigit = true) (hlength : whole.length ≤ 19) (hne : fraction ≠ [])
    (hfraction : ∀ c ∈ fraction, c.isDigit = true) :
    ∃ x, unsignedNumber? negative (whole ++ '.' :: fraction) = some (.float x, []) := by
  have hrest : ∀ c ∈ ('.' :: fraction).head?, c.isDigit = false := by simp
  obtain ⟨htake, hdrop⟩ := cut_append hdigits hrest
  have hpoint : fraction? ('.' :: fraction) = some (fraction, []) := by
    have h := fraction?_point [] hne hfraction (by simp)
    rwa [List.append_nil] at h
  have hvalue : Nat.ofDigitChars 10 whole 0 ≤ significandLimit :=
    calc Nat.ofDigitChars 10 whole 0 ≤ (0 + 1) * 10 ^ whole.length := (ofDigitChars_lt hdigits).le
      _ ≤ 10 ^ 19 := by
        rw [Nat.zero_add, Nat.one_mul]
        exact Nat.pow_le_pow_right (by decide) hlength
      _ ≤ significandLimit := by decide
  obtain ⟨x, hx⟩ : ∃ x, scale? negative (gather (Nat.ofDigitChars 10 whole 0) fraction).1
      (0 + ([] : List Char).length - (fraction.length -
        (gather (Nat.ofDigitChars 10 whole 0) fraction).2.length : Nat)) = some x :=
    exists_scale?_of_nonpos (gather_le hvalue) (by simp)
  refine ⟨x, ?_⟩
  rw [unsignedNumber?_eq_map (by rwa [htake]) (by rw [hdrop, hpoint])
    (show exponent? [] = _ from rfl), htake, numberOf?, gather_of_le hvalue]
  dsimp only
  rw [if_neg (by simp [hne]), hx]
  rfl

theorem foldl_eq_ofDigitChars (hdigits : ∀ c ∈ digits, c.isDigit = true) (n : Nat) :
    digits.foldl (fun (n : Int) c => n * 10 + (c.toNat - '0'.toNat)) n =
      Nat.ofDigitChars 10 digits n := by
  induction digits generalizing n with
  | nil => rfl
  | cons c digits ih =>
    rw [List.forall_mem_cons, Char.isDigit_iff_toNat] at hdigits
    rw [List.foldl_cons, Nat.ofDigitChars_cons, ← ih hdigits.2]
    congr 1
    rw [Nat.cast_add, Nat.cast_sub hdigits.1.1, Nat.cast_mul, Nat.cast_ofNat]
    ring

/-- The exponent part of a number. -/
def exponentText (first : Int) : List Char :=
  'e' :: (if first < 0 then '-' else '+') :: Nat.toDigits 10 first.natAbs

theorem exponent?_exponentText (first : Int) :
    exponent? (exponentText first) = some (first, true, []) := by
  have hdigits : ∀ c ∈ Nat.toDigits 10 first.natAbs, c.isDigit = true :=
    fun _ => isDigit_of_mem_toDigits
  have hsign : exponentSign ((if first < 0 then '-' else '+') :: Nat.toDigits 10 first.natAbs) =
      (decide (first < 0), Nat.toDigits 10 first.natAbs) := by
    split_ifs with h
    · rw [decide_eq_true h]
      rfl
    · rw [decide_eq_false h]
      rfl
  have hvalue := foldl_eq_ofDigitChars hdigits 0
  rw [Nat.cast_zero, Nat.ofDigitChars_ten_toDigits] at hvalue
  rw [exponentText, exponent?_cons (Or.inl rfl), hsign]
  dsimp only
  rw [takeWhile_eq_self hdigits, dropWhile_eq_nil hdigits, if_neg (by simp), hvalue]
  congr 2
  simp only [decide_eq_true_eq]
  omega

/-- One digit, the others after a point, and an exponent make a float, when it is not among the
last. -/
theorem exists_unsignedNumber?_scientific (hdigits : ∀ c ∈ d :: digits, c.isDigit = true)
    (hle : (Nat.ofDigitChars 10 (d :: digits) 0 * 10 ^ (first - digits.length) : ℚ) ≤
      (2 ^ 53 - 7 / 2) * 2 ^ Binary64.greatestExponent) :
    ∃ x, unsignedNumber? negative (scientific (d :: digits) first) = some (.float x, []) := by
  rw [List.forall_mem_cons] at hdigits
  obtain ⟨tail, htext, htail, hfraction⟩ : ∃ tail, scientific (d :: digits) first = [d] ++ tail ∧
      (∀ c ∈ tail.head?, c.isDigit = false) ∧
      fraction? tail = some (digits, exponentText first) := by
    cases digits with
    | nil =>
      exact ⟨exponentText first, rfl, by simp [exponentText],
        fraction?_of_ne (by simp [exponentText])⟩
    | cons d' digits =>
      refine ⟨'.' :: (d' :: digits) ++ exponentText first, rfl, by simp, ?_⟩
      exact fraction?_point _ (List.cons_ne_nil _ _) hdigits.2 (by simp [exponentText])
  have hwhole : ∀ c ∈ [d], c.isDigit = true := by simpa using hdigits.1
  obtain ⟨htake, hdrop⟩ := cut_append hwhole htail
  have hd : Nat.ofDigitChars 10 [d] 0 ≤ significandLimit :=
    (ofDigitChars_lt hwhole).le.trans
      (show (0 + 1) * 10 ^ 1 ≤ significandLimit by decide)
  obtain ⟨hgathered, hlength⟩ := gather_mul_le (Nat.ofDigitChars 10 [d] 0) digits
  obtain ⟨x, hx⟩ : ∃ x, scale? negative (gather (Nat.ofDigitChars 10 [d] 0) digits).1
      (first + ([] : List Char).length - (digits.length -
        (gather (Nat.ofDigitChars 10 [d] 0) digits).2.length : Nat)) = some x := by
    refine exists_scale? (gather_le hd) (le_trans ?_ hle)
    generalize gather (Nat.ofDigitChars 10 [d] 0) digits = gathered at hgathered hlength
    have hexponent :
        (first + ([] : List Char).length - (digits.length - gathered.2.length : Nat) : Int) =
        (gathered.2.length : Nat) + (first - digits.length) := by
      push_cast [hlength]
      simp
      ring
    rw [hexponent, zpow_add₀ (by norm_num), zpow_natCast, ← mul_assoc]
    refine mul_le_mul_of_nonneg_right ?_ (zpow_nonneg (by norm_num) _)
    rw [← Nat.ofDigitChars_append] at hgathered
    exact_mod_cast hgathered
  refine ⟨x, ?_⟩
  rw [htext, unsignedNumber?_eq_map (by rw [htake]; exact ⟨by simp, by simp⟩)
    (by rw [hdrop, hfraction])
    (exponent?_exponentText first), htake, numberOf?, gather_of_le hd]
  dsimp only
  rw [if_neg (by simp), hx]
  rfl

theorem isWhole_zero : IsWhole ['0'] := ⟨by simp, by simp⟩

theorem isWhole_cons (hd : d ≠ '0') (digits : List Char) : IsWhole (d :: digits) :=
  ⟨List.cons_ne_nil d digits, fun h => hd (Option.some.inj h.1)⟩

/-- Digits with a point among them, behind them or in front of them make a float. -/
theorem exists_unsignedNumber?_positional (hdigits : ∀ c ∈ d :: digits, c.isDigit = true)
    (hd : d ≠ '0') (hfirst : first < positionalEnd) :
    ∃ x, unsignedNumber? negative (positional (d :: digits) first) = some (.float x, []) := by
  have hzeros : ∀ n, ∀ c ∈ List.replicate n '0', c.isDigit = true := by
    intro n c hc
    rw [List.eq_of_mem_replicate hc]
    rfl
  have hend : positionalEnd = 16 := rfl
  unfold positional
  dsimp only
  split_ifs with hneg hshort
  · exact exists_unsignedNumber?_point isWhole_zero (by simp) (by decide) (by simp) fun c hc =>
      (List.mem_append.1 hc).elim (hzeros _ c) (hdigits c)
  · refine exists_unsignedNumber?_point (isWhole_cons hd _) ?_ ?_ (by simp) (by simp)
    · intro c hc
      exact (List.mem_append.1 hc).elim (hdigits c) (hzeros _ c)
    · rw [List.length_append, List.length_replicate]
      omega
  · rw [List.take_succ_cons]
    refine exists_unsignedNumber?_point (isWhole_cons hd _) ?_ ?_ ?_ ?_
    · intro c hc
      rw [← List.take_succ_cons] at hc
      exact hdigits c (List.mem_of_mem_take hc)
    · rw [List.length_cons, List.length_take]
      omega
    · rw [Ne, List.drop_eq_nil_iff]
      exact hshort
    · exact fun c hc => hdigits c (List.mem_of_mem_drop hc)

/-- Half a unit above a float is still in reach of the reader's steps, the three greatest floats
apart. -/
theorem le_of_inRange {x : Binary64} (hx : x.InRange)
    (hlast : ¬(x.exponent = Binary64.greatestExponent ∧ 2 ^ 53 - 3 ≤ x.significand)) :
    ((x.significand + 1 / 2) * 2 ^ x.exponent : ℚ) ≤
      (2 ^ 53 - 7 / 2) * 2 ^ Binary64.greatestExponent := by
  by_cases hexponent : x.exponent = Binary64.greatestExponent
  · have hle : x.significand ≤ 2 ^ 53 - 4 := by omega
    have hle' : (x.significand : ℚ) ≤ 2 ^ 53 - 4 := by
      have hcast : ((x.significand : Nat) : ℚ) ≤ ((2 ^ 53 - 4 : Nat) : ℚ) := Nat.cast_le.2 hle
      norm_num at hcast ⊢
      exact hcast
    rw [hexponent]
    refine mul_le_mul_of_nonneg_right ?_ (Binary64.two_zpow_pos _).le
    linarith
  · have hle : x.exponent ≤ Binary64.greatestExponent - 1 := by
      have := hx.exponent_le
      omega
    have hlt : (x.significand : ℚ) + 1 ≤ 2 ^ 53 := by exact_mod_cast hx.significand_lt
    calc ((x.significand + 1 / 2) * 2 ^ x.exponent : ℚ)
        ≤ 2 ^ 53 * 2 ^ (Binary64.greatestExponent - 1) :=
          mul_le_mul (by linarith) (zpow_le_zpow_right₀ (by norm_num) hle)
            (Binary64.two_zpow_pos _).le (by norm_num)
      _ = 2 ^ 52 * 2 ^ Binary64.greatestExponent := by
          rw [zpow_sub₀ (by norm_num)]
          ring
      _ ≤ (2 ^ 53 - 7 / 2) * 2 ^ Binary64.greatestExponent :=
          mul_le_mul_of_nonneg_right (by norm_num) (Binary64.two_zpow_pos _).le

/-- A float without its sign. -/
def unsignedFloatText (x : Binary64) : List Char :=
  if x.isZero then ['0', '.', '0']
  else
    if leastPositional ≤ x.shortest.2 ∧ x.shortest.2 < positionalEnd then
      positional x.shortest.1 x.shortest.2
    else scientific x.shortest.1 x.shortest.2

theorem floatText_eq (x : Binary64) :
    floatText x = (if x.negative then ['-'] else []) ++ unsignedFloatText x := by
  unfold floatText unsignedFloatText
  dsimp only
  split_ifs <;> rfl

/-- Whether a number is no integer. -/
def Number.isFloat : Number → Bool
  | .float _ => true
  | _ => false

theorem Number.isFloat_iff {n : Number} : n.isFloat = true ↔ ∃ x, n = .float x := by
  cases n <;> simp [isFloat]

/-- The three greatest floats are read as floats. -/
theorem isFloat_last : ∀ significand ∈ [2 ^ 53 - 3, 2 ^ 53 - 2, 2 ^ 53 - 1], ∀ sign negative,
    ((unsignedNumber? negative (unsignedFloatText ⟨sign, significand, 971⟩)).map fun found =>
      (found.1.isFloat, found.2)) = some (true, []) := by
  decide +kernel

theorem exists_unsignedNumber?_float {x : Binary64} (hx : x.InRange) :
    ∃ y, unsignedNumber? negative (unsignedFloatText x) = some (.float y, []) := by
  have hzero : ∃ y, unsignedNumber? negative ['0', '.', '0'] = some (.float y, []) :=
    exists_unsignedNumber?_point isWhole_zero (by simp) (by decide) (List.cons_ne_nil '0' [])
      (by simp)
  by_cases hlast : x.exponent = Binary64.greatestExponent ∧ 2 ^ 53 - 3 ≤ x.significand
  · obtain ⟨sign, significand, exponent⟩ := x
    obtain ⟨hexponent, hsignificand⟩ := hlast
    have hlt := hx.significand_lt
    dsimp only at hexponent hsignificand hlt
    have hmem : significand ∈ [2 ^ 53 - 3, 2 ^ 53 - 2, 2 ^ 53 - 1] := by
      rw [List.mem_cons, List.mem_cons, List.mem_singleton]
      omega
    obtain ⟨found, hfound, heq⟩ :=
      Option.map_eq_some_iff.1 (isFloat_last significand hmem sign negative)
    rw [Prod.mk.injEq, Number.isFloat_iff] at heq
    obtain ⟨⟨y, hy⟩, hrest⟩ := heq
    rw [hexponent]
    exact ⟨y, by rw [← hy, ← hrest]; exact hfound⟩
  unfold unsignedFloatText
  split_ifs with hx0 hpositional
  · exact hzero
  all_goals
    rw [Bool.not_eq_true] at hx0
    rcases Binary64.shortest_cases hx0 with hnone | ⟨d, digits, first, hshortest, hdigits, hd, hle⟩
  · rw [hnone]
    exact hzero
  · rw [hshortest] at hpositional ⊢
    exact exists_unsignedNumber?_positional hdigits hd hpositional.2
  · rw [hnone] at hpositional
    exact absurd (by decide) hpositional
  · rw [hshortest]
    exact exists_unsignedNumber?_scientific hdigits (hle.trans (le_of_inRange hx hlast))

theorem number?_sign {text rest : List Char} {n : Number}
    (h : unsignedNumber? negative text = some (n, rest)) :
    number? ((if negative then ['-'] else []) ++ text) = some (n, rest) := by
  cases negative with
  | true => exact h
  | false =>
    obtain ⟨hwhole, -⟩ := unsignedNumber?_eq_some_iff.1 h
    cases text with
    | nil => exact absurd rfl hwhole.1
    | cons c text =>
      have hc : c ≠ '-' := by
        rintro rfl
        exact hwhole.1 rfl
      exact (number?_of_ne hc text).trans h

theorem exists_number?_floatText {x : Binary64} (hx : x.InRange) :
    ∃ y, number? (floatText x) = some (.float y, []) := by
  obtain ⟨y, hy⟩ : ∃ y, unsignedNumber? x.negative _ = some (.float y, []) :=
    exists_unsignedNumber?_float hx
  rw [floatText_eq]
  exact ⟨y, number?_sign hy⟩

end Float

end Json

/-- What a float has become once it is written and read. -/
def Binary64.reread (x : Binary64) : Binary64 :=
  match Json.number? (Json.floatText x) with
  | some (.float y, _) => y
  | _ => x

namespace Json

/-- What a number has become once it is written and read. -/
def Number.reread : Number → Number
  | .float x => .float x.reread
  | n => n

/-- A number in range is read back. -/
theorem number?_text {n : Number} (h : n.InRange) : number? n.text = some (n.reread, []) := by
  cases n with
  | natural n => exact number?_toDigits h
  | negative n => exact number?_negative h.1 h.2
  | float x =>
    obtain ⟨y, hy⟩ := exists_number?_floatText h
    have hreread : x.reread = y := by
      rw [Binary64.reread, hy]
    rw [Number.text, hy, Number.reread, hreread]

end Json

end Branding
