import Mathlib.Algebra.Order.Field.Basic
import Mathlib.Algebra.Order.Field.Power
import Mathlib.Data.Rat.Cast.Order
import Mathlib.Tactic.FieldSimp
import Mathlib.Tactic.Linarith
import Mathlib.Tactic.NormNum
import Mathlib.Tactic.Positivity
import Mathlib.Tactic.Ring
import WireRecords.Decimal.Shortest

/-!
# Numerals that denote a binary64 number exactly

A quotient that a binary64 number stands for is rounded to that number, so a numeral with its exact
value reads back as it. The number that a numeral denotes depends on its value alone.
-/

namespace WireRecords

namespace Binary64

theorem den_scale_pos {base den : Nat} (hbase : 0 < base) (num : Nat) (hden : 0 < den) (e : Int) :
    0 < (scale base num den e).2 := by
  rw [scale]
  split
  · exact Nat.mul_pos hden (Nat.pow_pos hbase)
  · exact hden

theorem scale_eq {base den : Nat} (hbase : 0 < base) (num : Nat) (hden : 0 < den) (e : Int) :
    ((scale base num den e).1 : ℚ) / (scale base num den e).2 = num / den / (base : ℚ) ^ e := by
  have hbase' : (base : ℚ) ≠ 0 := by exact_mod_cast hbase.ne'
  have hden' : (den : ℚ) ≠ 0 := by exact_mod_cast hden.ne'
  rw [scale]
  split
  · next nonneg =>
    obtain ⟨k, rfl⟩ := Int.eq_ofNat_of_zero_le nonneg
    simp only [Int.toNat_natCast, Nat.pow_eq, Nat.cast_mul, Nat.cast_pow, zpow_natCast]
    rw [div_div]
  · next negative =>
    obtain ⟨k, hk⟩ := Int.eq_ofNat_of_zero_le (a := -e) (by omega)
    obtain rfl : e = -(k : Int) := by omega
    simp only [neg_neg, Int.toNat_natCast, Nat.pow_eq, Nat.cast_mul, Nat.cast_pow, zpow_neg,
      zpow_natCast]
    field_simp

theorem roundDiv_mul (m : Nat) {d : Nat} (pos : 0 < d) : roundDiv (m * d) d = m := by
  rw [roundDiv, Nat.mul_div_cancel m pos, Nat.mul_mod_left]
  exact if_pos pos

/-- The mantissa and the exponent of a positive number, the mantissa with as many bits as it may
have. -/
structure Canonical (m : Nat) (e : Int) : Prop where
  pos : 0 < m
  lt : m < 2 ^ 53
  least : -1074 ≤ e
  greatest : e ≤ 971
  full : 2 ^ 52 ≤ m ∨ e = -1074

variable {m num den : Nat} {e : Int}

theorem two_zpow_le_iff {a b : Int} : (2 : ℚ) ^ a ≤ 2 ^ b ↔ a ≤ b :=
  zpow_le_zpow_iff_right₀ one_lt_two

theorem two_zpow_lt_iff {a b : Int} : (2 : ℚ) ^ a < 2 ^ b ↔ a < b :=
  zpow_lt_zpow_iff_right₀ one_lt_two

theorem log2_bounds {n : Nat} (pos : 0 < n) :
    (2 : ℚ) ^ (n.log2 : Int) ≤ n ∧ (n : ℚ) < 2 ^ ((n.log2 : Int) + 1) := by
  constructor
  · rw [zpow_natCast]
    exact_mod_cast Nat.log2_self_le pos.ne'
  · have above : n < 2 ^ (n.log2 + 1) := Nat.lt_log2_self
    exact_mod_cast above

theorem quotient_bounds (hnum : 0 < num) (hden : 0 < den) :
    (2 : ℚ) ^ ((num.log2 : Int) - den.log2 - 1) < num / den ∧
      (num : ℚ) / den < 2 ^ ((num.log2 : Int) - den.log2 + 1) := by
  obtain ⟨num_ge, num_lt⟩ := log2_bounds hnum
  obtain ⟨den_ge, den_lt⟩ := log2_bounds hden
  have den_pos : (0 : ℚ) < den := by exact_mod_cast hden
  constructor
  · rw [lt_div_iff₀ den_pos]
    calc (2 : ℚ) ^ ((num.log2 : Int) - den.log2 - 1) * den
        < 2 ^ ((num.log2 : Int) - den.log2 - 1) * 2 ^ ((den.log2 : Int) + 1) := by gcongr
      _ = 2 ^ (num.log2 : Int) := by rw [← zpow_add₀ two_ne_zero]; congr 1; ring
      _ ≤ num := num_ge
  · rw [div_lt_iff₀ den_pos]
    calc (num : ℚ) < 2 ^ ((num.log2 : Int) + 1) := num_lt
      _ = 2 ^ ((num.log2 : Int) - den.log2 + 1) * 2 ^ (den.log2 : Int) := by
        rw [← zpow_add₀ two_ne_zero]; congr 1; ring
      _ ≤ 2 ^ ((num.log2 : Int) - den.log2 + 1) * den := by gcongr

theorem two_pow_le_scale_iff (num : Nat) (hden : 0 < den) (bits : Nat) (low : Int) :
    2 ^ bits ≤ (scale 2 num den low).1 / (scale 2 num den low).2 ↔
      (2 : ℚ) ^ ((bits : Int) + low) ≤ num / den := by
  have pos := den_scale_pos two_pos num hden low
  have scaled := scale_eq two_pos num hden low
  have pos' : (0 : ℚ) < (scale 2 num den low).2 := by exact_mod_cast pos
  rw [Nat.cast_two] at scaled
  rw [Nat.le_div_iff_mul_le pos, zpow_add₀ two_ne_zero, zpow_natCast,
    ← le_div_iff₀ (zpow_pos two_pos low), ← scaled, le_div_iff₀ pos']
  exact_mod_cast Iff.rfl

theorem lastPlace_eq (h : Canonical m e) (hnum : 0 < num) (hden : 0 < den)
    (value : (num : ℚ) / den = m * 2 ^ e) : lastPlace num den = e := by
  obtain ⟨above, below⟩ := quotient_bounds hnum hden
  obtain ⟨m_ge, m_lt⟩ := log2_bounds h.pos
  have step : (0 : ℚ) < 2 ^ e := zpow_pos two_pos e
  -- the value lies between two powers of two, and so does the quotient
  have value_ge : (2 : ℚ) ^ ((m.log2 : Int) + e) ≤ num / den := by
    rw [value, zpow_add₀ two_ne_zero]
    gcongr
  have value_lt : (num : ℚ) / den < 2 ^ ((m.log2 : Int) + 1 + e) := by
    rw [value, zpow_add₀ two_ne_zero]
    gcongr
  have low := two_zpow_lt_iff.mp (above.trans value_lt)
  have high := two_zpow_lt_iff.mp (value_ge.trans_lt below)
  have bits : m.log2 ≤ 52 := Nat.lt_succ_iff.mp ((Nat.log2_lt h.pos.ne').mpr h.lt)
  have full : m.log2 = 52 ∨ e = -1074 := by
    rcases h.full with full | least
    · have := (Nat.le_log2 h.pos.ne').mpr full
      exact .inl (by omega)
    · exact .inr least
  have reaches := two_pow_le_scale_iff num hden 53 ((num.log2 : Int) - (den.log2 : Int) - 53)
  rw [show ((53 : Nat) : Int) + ((num.log2 : Int) - (den.log2 : Int) - 53) =
    (num.log2 : Int) - den.log2 by omega] at reaches
  have least := h.least
  simp only [lastPlace]
  split
  · next large =>
    have at_most := two_zpow_lt_iff.mp ((reaches.mp large).trans_lt value_lt)
    omega
  · next small =>
    have at_least : ¬ (num.log2 : Int) - den.log2 ≤ m.log2 + e := by
      intro le
      exact small (reaches.mpr ((two_zpow_le_iff.mpr le).trans value_ge))
    omega

theorem magnitude_eq (h : Canonical m e) (hnum : 0 < num) (hden : 0 < den)
    (value : (num : ℚ) / den = m * 2 ^ e) :
    magnitude num den = min infinityBits ((e + 1074).toNat <<< 52 + m) := by
  have place := lastPlace_eq h hnum hden value
  have pos := den_scale_pos two_pos num hden e
  have exact : (scale 2 num den e).1 = m * (scale 2 num den e).2 := by
    have scaled := scale_eq two_pos num hden e
    have pos' : (0 : ℚ) < (scale 2 num den e).2 := by exact_mod_cast pos
    have step : (2 : ℚ) ^ e ≠ 0 := (zpow_pos two_pos e).ne'
    rw [value, Nat.cast_two, mul_div_assoc, div_self step, mul_one,
      div_eq_iff pos'.ne'] at scaled
    exact_mod_cast scaled
  simp only [magnitude, if_neg hnum.ne', place, exact, roundDiv_mul m pos]

theorem infinityBits_eq : infinityBits = 2047 * 2 ^ 52 := by decide

theorem magnitude_le (num den : Nat) : magnitude num den ≤ infinityBits := by
  rw [magnitude]
  split
  · exact Nat.zero_le _
  · exact Nat.min_le_left _ _

theorem ofMagnitude_injective {negative : Bool} {a b : Nat} (ha : a ≤ infinityBits)
    (hb : b ≤ infinityBits) (same : ofMagnitude negative a = ofMagnitude negative b) : a = b := by
  have bits := congrArg (fun x => x.bits.toNat) same
  rw [infinityBits_eq] at ha hb
  have sign : (if negative then 1 <<< 63 else 0 : Nat) ≤ 2 ^ 63 := by cases negative <;> decide
  simp only [ofMagnitude, UInt64.toNat_ofNat'] at bits
  omega

theorem ofMagnitude_magnitudeBits (x : Binary64) :
    ofMagnitude x.isNegative x.magnitudeBits = x := by
  have bound := x.bits.toNat_lt
  have half : 1 <<< 63 = 2 ^ 63 := by decide
  have joined : (if x.isNegative then 1 <<< 63 else 0) + x.magnitudeBits = x.bits.toNat := by
    simp only [isNegative, magnitudeBits, half, decide_eq_true_eq]
    split <;> omega
  rw [ofMagnitude, joined, UInt64.ofNat_toNat]

theorem parts_eq {x : Binary64} (finite : x.isFinite = true) (nonzero : x.magnitudeBits ≠ 0) :
    ∃ m e, x.parts = .finite x.isNegative m e ∧ Canonical m e ∧
      (e + 1074).toNat <<< 52 + m = x.magnitudeBits := by
  have bound : x.magnitudeBits < 2047 * 2 ^ 52 := by
    rw [← infinityBits_eq]
    exact of_decide_eq_true finite
  have unit : 1 <<< 52 = 2 ^ 52 := by decide
  have field : x.magnitudeBits >>> 52 = x.magnitudeBits / 2 ^ 52 := Nat.shiftRight_eq_div_pow _ 52
  have proper : x.magnitudeBits / 2 ^ 52 ≠ 2047 := by omega
  simp only [parts, unit, field, if_neg proper, Nat.shiftLeft_eq]
  by_cases subnormal : x.magnitudeBits / 2 ^ 52 = 0
  · refine ⟨_, _, if_pos subnormal, ⟨?_, ?_, ?_, ?_, .inr rfl⟩, ?_⟩ <;> omega
  · refine ⟨_, _, if_neg subnormal, ⟨?_, ?_, ?_, ?_, .inl ?_⟩, ?_⟩ <;> omega

end Binary64

namespace Decimal

open Binary64

def value (d : Decimal) : ℚ := d.digits * (10 : ℚ) ^ d.exponent

theorem value_stripZeros (fuel n : Nat) (e : Int) :
    (stripZeros fuel n e).value = n * (10 : ℚ) ^ e := by
  induction fuel generalizing n e with
  | zero => rfl
  | succ fuel ih =>
    rw [stripZeros]
    split
    · next zero =>
      have tens : n = n / 10 * 10 := (Nat.div_mul_cancel (Nat.dvd_of_mod_eq_zero zero.2)).symm
      have tens' : (n : ℚ) = (n / 10 : Nat) * 10 := by exact_mod_cast tens
      rw [ih, zpow_add_one₀ (by norm_num), tens']
      ring
    · rfl

@[simp] theorem value_normalize (d : Decimal) : d.normalize.value = d.value :=
  value_stripZeros _ d.digits d.exponent

theorem stripZeros_digits {fuel n : Nat} (pos : 0 < n) (enough : n < 10 ^ fuel) (e : Int) :
    (stripZeros fuel n e).digits % 10 ≠ 0 := by
  induction fuel generalizing n e with
  | zero => omega
  | succ fuel ih =>
    rw [stripZeros]
    split
    · next zero => exact ih (by omega) (by omega) (e + 1)
    · next stop =>
      show n % 10 ≠ 0
      omega

theorem lt_pow_digitChars (d : Decimal) : d.digits < 10 ^ d.digitChars.length :=
  (Nat.length_toDigits_le_iff (by decide) Nat.length_toDigits_pos).mp le_rfl

theorem normalize_digits {d : Decimal} (pos : 0 < d.digits) : d.normalize.digits % 10 ≠ 0 :=
  stripZeros_digits pos d.lt_pow_digitChars d.exponent

theorem eq_of_value_eq {d d' : Decimal} (h : d.digits % 10 ≠ 0)
    (le : d.exponent ≤ d'.exponent) (same : d.value = d'.value) : d = d' := by
  obtain ⟨k, hk⟩ := Int.le.dest le
  have digits : d.digits = d'.digits * 10 ^ k := by
    have ten : (10 : ℚ) ^ d.exponent ≠ 0 := (zpow_pos (by norm_num) _).ne'
    rw [value, value, ← hk, zpow_add₀ (by norm_num), zpow_natCast, mul_comm ((10 : ℚ) ^ d.exponent),
      ← mul_assoc] at same
    exact_mod_cast mul_right_cancel₀ ten same
  cases k with
  | zero =>
    cases d
    cases d'
    simp_all
  | succ k =>
    rw [digits, pow_succ, ← mul_assoc, Nat.mul_mod_left] at h
    exact absurd rfl h

theorem value_eq_zero_iff {d : Decimal} : d.value = 0 ↔ d.digits = 0 := by
  have ten : (10 : ℚ) ^ d.exponent ≠ 0 := (zpow_pos (by norm_num) _).ne'
  rw [value, mul_eq_zero, or_iff_left ten]
  exact_mod_cast Iff.rfl

theorem digits_normalize_pos {d : Decimal} (pos : 0 < d.digits) : 0 < d.normalize.digits := by
  apply Nat.pos_of_ne_zero
  rw [Ne, ← value_eq_zero_iff, value_normalize, value_eq_zero_iff]
  exact pos.ne'

theorem normalize_congr {d d' : Decimal} (pos : 0 < d.digits) (same : d.value = d'.value) :
    d.normalize = d'.normalize := by
  have pos' : 0 < d'.digits := by
    apply Nat.pos_of_ne_zero
    rw [Ne, ← value_eq_zero_iff, ← same, value_eq_zero_iff]
    exact pos.ne'
  have same' : d.normalize.value = d'.normalize.value := by
    rw [value_normalize, value_normalize, same]
  rcases Int.le_total d.normalize.exponent d'.normalize.exponent with le | ge
  · exact eq_of_value_eq (normalize_digits pos) le same'
  · exact (eq_of_value_eq (normalize_digits pos') ge same'.symm).symm

theorem nearest_zero (negative : Bool) {d : Decimal} (zero : d.digits = 0) :
    nearest negative d = ofMagnitude negative 0 := by
  have zero' : d.normalize.digits = 0 := by
    rw [← value_eq_zero_iff, value_normalize, value_eq_zero_iff]
    exact zero
  simp only [nearest, ofDecimal, if_pos zero']

/-- What a numeral denotes depends on its value alone. -/
theorem nearest_congr (negative : Bool) {d d' : Decimal} (same : d.value = d'.value) :
    nearest negative d = nearest negative d' := by
  rcases Nat.eq_zero_or_pos d.digits with zero | pos
  · have zero' : d'.digits = 0 := by rw [← value_eq_zero_iff, ← same, value_eq_zero_iff, zero]
    rw [nearest_zero negative zero, nearest_zero negative zero']
  · rw [nearest, nearest, normalize_congr pos same]

theorem exists_nearest_eq (d : Decimal) :
    ∃ magnitude ≤ infinityBits,
      ∀ negative, nearest negative d = ofMagnitude negative magnitude := by
  simp only [nearest, ofDecimal]
  split
  · exact ⟨0, Nat.zero_le _, fun _ => rfl⟩
  · split
    · exact ⟨infinityBits, le_rfl, fun _ => rfl⟩
    · split
      · exact ⟨0, Nat.zero_le _, fun _ => rfl⟩
      · exact ⟨_, magnitude_le _ _, fun _ => rfl⟩

theorem ten_zpow_lt_iff {a b : Int} : (10 : ℚ) ^ a < 10 ^ b ↔ a < b :=
  zpow_lt_zpow_iff_right₀ (by norm_num)

theorem value_bounds {d : Decimal} (pos : 0 < d.digits) :
    (10 : ℚ) ^ (d.point - 1) ≤ d.value ∧ d.value < (10 : ℚ) ^ d.point := by
  have ten : (0 : ℚ) < 10 ^ d.exponent := zpow_pos (by norm_num) _
  obtain ⟨n, length⟩ : ∃ n, d.digitChars.length = n + 1 :=
    Nat.exists_eq_add_one.mpr Nat.length_toDigits_pos
  have below := d.lt_pow_digitChars
  have above : 10 ^ n ≤ d.digits := by
    rcases Nat.eq_zero_or_pos n with rfl | more
    · exact pos
    · have long := (Nat.length_toDigits_le_iff (n := d.digits) (b := 10) (by decide) more).not
      rw [← digitChars, length] at long
      exact Nat.not_lt.mp (long.mp (by omega))
  rw [length] at below
  constructor
  · have split : (10 : ℚ) ^ (d.point - 1) = (10 : ℚ) ^ n * 10 ^ d.exponent := by
      rw [point, length, ← zpow_natCast, ← zpow_add₀ (by norm_num)]
      congr 1
      push_cast
      ring
    rw [split, value]
    gcongr
    exact_mod_cast above
  · have split : (10 : ℚ) ^ d.point = (10 : ℚ) ^ (n + 1) * 10 ^ d.exponent := by
      rw [point, length, ← zpow_natCast, ← zpow_add₀ (by norm_num)]
    rw [split, value]
    gcongr
    exact_mod_cast below

theorem two_pow_le_ten_pow : (2 : ℚ) ^ (1024 : Int) ≤ 10 ^ (310 : Int) := by
  have powers : (2 ^ 93) ^ 11 * 2 ≤ (10 ^ 28) ^ 11 * 10 ^ 2 :=
    Nat.mul_le_mul (Nat.pow_le_pow_left (by norm_num) 11) (by norm_num)
  rw [← pow_mul, ← pow_succ, ← pow_mul, ← pow_add] at powers
  have powers' : (_ : ℚ) ≤ _ := Nat.cast_le.mpr powers
  rw [Nat.cast_pow, Nat.cast_pow] at powers'
  exact powers'

theorem ten_pow_le_two_pow : (10 : ℚ) ^ (-330 : Int) ≤ 2 ^ (-1074 : Int) := by
  have powers : (2 ^ 179) ^ 6 ≤ (10 ^ 55) ^ 6 := Nat.pow_le_pow_left (by norm_num) 6
  rw [← pow_mul, ← pow_mul] at powers
  have powers' : (_ : ℚ) ≤ _ := Nat.cast_le.mpr powers
  rw [Nat.cast_pow, Nat.cast_pow] at powers'
  rw [zpow_neg, zpow_neg]
  exact inv_anti₀ (zpow_pos two_pos _) powers'

/-- A numeral with the exact value of a number denotes that number. -/
theorem nearest_eq {m : Nat} {e : Int} (h : Canonical m e) {d : Decimal}
    (same : d.value = m * 2 ^ e) (negative : Bool) :
    nearest negative d = ofMagnitude negative (min infinityBits ((e + 1074).toNat <<< 52 + m)) := by
  have m_pos : (0 : ℚ) < m := by exact_mod_cast h.pos
  have pos : 0 < d.digits := by
    apply Nat.pos_of_ne_zero
    rw [Ne, ← value_eq_zero_iff, same]
    positivity
  have pos' := digits_normalize_pos pos
  obtain ⟨above, below⟩ := value_bounds pos'
  rw [value_normalize, same] at above below
  have high : (m : ℚ) * 2 ^ e < 10 ^ (310 : Int) := by
    calc (m : ℚ) * 2 ^ e < 2 ^ 53 * 2 ^ e := by
          gcongr
          exact_mod_cast h.lt
      _ ≤ 2 ^ 53 * 2 ^ (971 : Int) := by
          gcongr
          · norm_num
          · exact h.greatest
      _ = 2 ^ (1024 : Int) := by rw [← zpow_natCast, ← zpow_add₀ two_ne_zero]; rfl
      _ ≤ 10 ^ (310 : Int) := two_pow_le_ten_pow
  have low : (10 : ℚ) ^ (-330 : Int) ≤ m * 2 ^ e := by
    calc (10 : ℚ) ^ (-330 : Int) ≤ 2 ^ (-1074 : Int) := ten_pow_le_two_pow
      _ ≤ 2 ^ e := two_zpow_le_iff.mpr h.least
      _ ≤ m * 2 ^ e := le_mul_of_one_le_left (by positivity) (by exact_mod_cast h.pos)
  have few := ten_zpow_lt_iff.mp (above.trans_lt high)
  have many := ten_zpow_lt_iff.mp (low.trans_lt below)
  rw [point, digitChars] at few many
  have ten : 0 < 10 := by decide
  have scaled := scale_eq ten d.normalize.digits one_pos (-d.normalize.exponent)
  rw [Nat.cast_one, div_one, zpow_neg, div_inv_eq_mul] at scaled
  have exact : ((scale 10 d.normalize.digits 1 (-d.normalize.exponent)).1 : ℚ) /
      (scale 10 d.normalize.digits 1 (-d.normalize.exponent)).2 = m * 2 ^ e := by
    rw [scaled, ← same, ← value_normalize]
    rfl
  have den := den_scale_pos ten d.normalize.digits one_pos (-d.normalize.exponent)
  have num : 0 < (scale 10 d.normalize.digits 1 (-d.normalize.exponent)).1 := by
    apply Nat.pos_of_ne_zero
    intro zero
    rw [zero, Nat.cast_zero, zero_div] at exact
    exact (mul_pos m_pos (zpow_pos two_pos e)).ne exact
  simp only [nearest, ofDecimal, if_neg pos'.ne']
  rw [if_neg (by omega), if_neg (by omega), magnitude_eq h num den exact]

theorem value_expansion (m : Nat) (e : Int) : (expansion m e).value = m * 2 ^ e := by
  rw [expansion]
  split
  · next nonneg =>
    obtain ⟨k, rfl⟩ := Int.eq_ofNat_of_zero_le nonneg
    simp [value, Nat.shiftLeft_eq]
  · next negative =>
    obtain ⟨k, hk⟩ := Int.eq_ofNat_of_zero_le (a := -e) (by omega)
    obtain rfl : e = -(k : Int) := by omega
    simp only [value, neg_neg, Int.toNat_natCast, Nat.pow_eq, Nat.cast_mul, Nat.cast_pow, zpow_neg,
      zpow_natCast]
    have ten : (10 : ℚ) = 2 * 5 := by norm_num
    rw [ten, mul_pow]
    push_cast
    field_simp

/-- The neighbour that is found reads back as it was tried, and the exact expansion always does. -/
theorem nearest_shortestOf {magnitude m : Nat} {e : Int} (h : Canonical m e)
    (bound : magnitude ≤ infinityBits) (pattern : (e + 1074).toNat <<< 52 + m = magnitude) :
    nearest false (shortestOf magnitude m e) = ofMagnitude false magnitude := by
  simp only [shortestOf]
  rw [nearest_congr false (value_normalize _)]
  cases found : List.find? (readsBack magnitude) _ with
  | some d =>
    have back : readsBack magnitude d = true := List.find?_some found
    exact eq_of_beq back
  | none =>
    rw [Option.getD_none, nearest_eq h (value_expansion m e), pattern, Nat.min_eq_right bound]

theorem nearest_shortest? {x : Binary64} (finite : x.isFinite = true)
    (nonzero : x.magnitudeBits ≠ 0) :
    ∃ d, shortest? x = some d ∧ 0 < d.digits ∧ nearest x.isNegative d = x := by
  obtain ⟨m, e, parts, canonical, pattern⟩ := parts_eq finite nonzero
  have bound : x.magnitudeBits ≤ infinityBits := Nat.le_of_lt (of_decide_eq_true finite)
  have read := nearest_shortestOf canonical bound pattern
  refine ⟨shortestOf x.magnitudeBits m e, ?_, ?_, ?_⟩
  · rw [shortest?, parts]
    split
    · next zero =>
      cases zero
      exact absurd canonical.pos (Nat.lt_irrefl 0)
    · next same =>
      cases same
      rfl
    · next other => exact absurd rfl (other _ _ _)
  · apply Nat.pos_of_ne_zero
    intro zero
    rw [nearest_zero false zero] at read
    exact nonzero (ofMagnitude_injective (Nat.zero_le _) bound read).symm
  · -- the sign has no part in the search
    obtain ⟨magnitude, small, signed⟩ := exists_nearest_eq (shortestOf x.magnitudeBits m e)
    have same := ofMagnitude_injective small bound ((signed false).symm.trans read)
    rw [signed, same, ofMagnitude_magnitudeBits]

end Decimal

end WireRecords
