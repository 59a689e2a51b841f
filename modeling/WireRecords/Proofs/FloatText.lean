import WireRecords.Proofs.JsonToken
import WireRecords.Proofs.Rounding

/-!
# Numerals of floats

A finite float is written as a numeral with a point or an exponent, in one of three layouts. Each
layout has the value of the shortest digits, so the numeral is read back as the float, its sign
included.
-/

namespace WireRecords

namespace Literal

theorem value_append (ds es : List Char) :
    value 10 (ds ++ es) = value 10 ds * 10 ^ es.length + value 10 es := by
  induction es using List.reverseRecOn with
  | nil => simp [value]
  | append_singleton es c ih =>
    have last (cs : List Char) : value 10 (cs ++ [c]) = 10 * value 10 cs + digitValue c := by
      rw [value, List.foldl_append]
      rfl
    rw [← List.append_assoc, last, last, ih, List.length_append, List.length_singleton, pow_succ]
    ring

theorem value_zeros (n : Nat) : value 10 (List.replicate n '0') = 0 := by
  induction n with
  | zero => rfl
  | succ n ih => exact ih

end Literal

namespace Decimal

theorem value_mul_pow (n k : Nat) (e : Int) :
    (⟨n * 10 ^ k, e⟩ : Decimal).value = (⟨n, e + k⟩ : Decimal).value := by
  rw [value, value, zpow_add₀ (by norm_num), zpow_natCast]
  push_cast
  ring

end Decimal

namespace Json

namespace Numeral

def decimal (n : Numeral) : Decimal :=
  ⟨Literal.value 10 (n.whole ++ n.fraction.getD []),
    n.exponent.getD 0 - (n.fraction.getD []).length⟩

/-- The numeral is no integer, and has the value of a number. -/
structure Denotes (n : Numeral) (d : Decimal) : Prop where
  parts : n.fraction.isSome = true ∨ n.exponent.isSome = true
  value : n.decimal.value = d.value

theorem number?_eq {n : Numeral} (parts : n.fraction.isSome = true ∨ n.exponent.isSome = true)
    (negative : Bool) :
    number? negative n.whole n.fraction n.exponent =
      finite? (Decimal.nearest negative n.decimal) := by
  unfold number?
  split
  · next fraction exponent => simp [fraction, exponent] at parts
  · rfl

end Numeral

section

variable {d : Decimal}

theorem digitChars_digits : ∀ c ∈ d.digitChars, Literal.isDigit c = true :=
  fun _ => Literal.isDigit_of_mem_toDigits

theorem value_digitChars : Literal.value 10 d.digitChars = d.digits :=
  Literal.value_toDigits d.digits

theorem digitChars_eq_cons (pos : 0 < d.digits) :
    ∃ c cs, d.digitChars = c :: cs ∧ c ≠ '0' := Literal.toDigits_eq_cons pos

theorem digits_zeros (k : Nat) : ∀ c ∈ List.replicate k '0', Literal.isDigit c = true := by
  intro c member
  rw [List.eq_of_mem_replicate member]
  rfl

theorem fraction_zero : ∀ ds ∈ some ['0'], ds ≠ [] ∧ ∀ c ∈ ds, Literal.isDigit c = true := by
  rintro _ ⟨⟩
  exact ⟨List.cons_ne_nil _ _, List.forall_mem_singleton.mpr rfl⟩

theorem exists_integral (pos : 0 < d.digits) (integral : 0 ≤ d.exponent) (point : 0 < d.point) :
    ∃ n : Numeral, n.text = d.positionalText ++ ['.', '0'] ∧ n.Denotes d := by
  obtain ⟨c, cs, front, nonzero⟩ := digitChars_eq_cons pos
  obtain ⟨k, hk⟩ := Int.eq_ofNat_of_zero_le integral
  have zeros : d.exponent.toNat = k := by omega
  have digits : ∀ c ∈ d.digitChars ++ List.replicate k '0', Literal.isDigit c = true :=
    List.forall_mem_append.mpr ⟨digitChars_digits, digits_zeros k⟩
  have whole : Whole (d.digitChars ++ List.replicate k '0') := by
    rw [front] at digits ⊢
    exact .digits nonzero digits
  have written : Literal.value 10 (d.digitChars ++ List.replicate k '0' ++ ['0']) =
      d.digits * 10 ^ (k + 1) := by
    rw [Literal.value_append, Literal.value_append, Literal.value_zeros, value_digitChars,
      List.length_replicate, pow_succ, ← mul_assoc]
    rfl
  refine ⟨⟨_, some ['0'], none, whole, fraction_zero⟩, ?_, .inl rfl, ?_⟩
  · rw [Decimal.positionalText, if_neg (by omega), if_pos integral, zeros]
    rfl
  · rw [Numeral.decimal, Option.getD_some, written, Decimal.value_mul_pow, Decimal.value,
      Decimal.value, hk]
    congr 2
    simp

theorem exists_small (point : d.point ≤ 0) :
    ∃ n : Numeral, n.text = d.positionalText ∧ n.Denotes d := by
  obtain ⟨k, hk⟩ := Int.eq_ofNat_of_zero_le (a := -d.point) (by omega)
  have zeros : (-d.point).toNat = k := by omega
  have written : Literal.value 10 (['0'] ++ (List.replicate k '0' ++ d.digitChars)) = d.digits := by
    have zero : Literal.value 10 ['0'] = 0 := rfl
    simp only [Literal.value_append, Literal.value_zeros, value_digitChars, zero, Nat.zero_mul,
      Nat.zero_add]
  refine ⟨⟨['0'], some (List.replicate k '0' ++ d.digitChars), none, .zero, ?_⟩, ?_, .inl rfl, ?_⟩
  · rintro _ ⟨⟩
    constructor
    · exact List.append_ne_nil_of_right_ne_nil _ Nat.toDigits_ne_nil
    · exact List.forall_mem_append.mpr ⟨digits_zeros k, digitChars_digits⟩
  · rw [Decimal.positionalText, if_pos point, zeros, Numeral.text]
    simp only [Numeral.fractionText, Numeral.exponentText, List.append_nil, List.singleton_append]
  · have place : (0 : Int) - (List.replicate k '0' ++ d.digitChars).length = d.exponent := by
      rw [Decimal.point] at hk
      rw [List.length_append, List.length_replicate]
      omega
    simp only [Numeral.decimal, Option.getD_some, Option.getD_none, written, place]

theorem exists_fraction (pos : 0 < d.digits) (point : 0 < d.point) (broken : d.exponent < 0) :
    ∃ n : Numeral, n.text = d.positionalText ∧ n.Denotes d := by
  obtain ⟨c, cs, front, nonzero⟩ := digitChars_eq_cons pos
  obtain ⟨k, hk⟩ := Int.eq_succ_of_zero_lt point
  have place : d.point.toNat = k + 1 := by omega
  have inside : (k : Int) + 1 - d.digitChars.length = d.exponent := by
    rw [Decimal.point] at hk
    omega
  have whole : Whole (d.digitChars.take (k + 1)) := by
    have digits : ∀ c ∈ d.digitChars.take (k + 1), Literal.isDigit c = true :=
      fun c member => digitChars_digits c (List.mem_of_mem_take member)
    rw [front, List.take_succ_cons] at digits ⊢
    exact .digits nonzero digits
  refine ⟨⟨_, some (d.digitChars.drop (k + 1)), none, whole, ?_⟩, ?_, .inl rfl, ?_⟩
  · rintro _ ⟨⟩
    constructor
    · rw [Ne, List.drop_eq_nil_iff]
      omega
    · exact fun c member => digitChars_digits c (List.mem_of_mem_drop member)
  · rw [Decimal.positionalText, if_neg (by omega), if_neg (by omega), place, Numeral.text]
    simp only [Numeral.fractionText, Numeral.exponentText, List.append_nil]
  · have behind : (0 : Int) - (d.digitChars.drop (k + 1)).length = d.exponent := by
      rw [List.length_drop]
      omega
    simp only [Numeral.decimal, Option.getD_some, Option.getD_none, List.take_append_drop,
      value_digitChars, behind]

theorem exists_scientific (pos : 0 < d.digits) :
    ∃ n : Numeral, n.text = Decimal.mantissaText d.digitChars ++
      'e' :: Decimal.exponentText (d.point - 1) ∧ n.Denotes d := by
  obtain ⟨c, cs, front, nonzero⟩ := digitChars_eq_cons pos
  have digits : ∀ c ∈ d.digitChars, Literal.isDigit c = true := digitChars_digits
  have value : Literal.value 10 d.digitChars = d.digits := value_digitChars
  have place : d.point - 1 - cs.length = d.exponent := by
    rw [Decimal.point, front, List.length_cons]
    omega
  rw [front] at digits value ⊢
  have whole : Whole [c] :=
    .digits nonzero (List.forall_mem_singleton.mpr (digits c List.mem_cons_self))
  cases cs with
  | nil =>
    refine ⟨⟨[c], none, some (d.point - 1), whole, by simp⟩, rfl, .inr rfl, ?_⟩
    simp only [Numeral.decimal, Option.getD_some, Option.getD_none, List.append_nil, value, place]
  | cons c' cs =>
    refine ⟨⟨[c], some (c' :: cs), some (d.point - 1), whole, ?_⟩, rfl, .inl rfl, ?_⟩
    · rintro _ ⟨⟩
      exact ⟨List.cons_ne_nil _ _, fun c member => digits c (List.mem_cons_of_mem _ member)⟩
    · simp only [Numeral.decimal, Option.getD_some, List.singleton_append, value, place]

theorem exists_numeral (pos : 0 < d.digits) :
    ∃ n : Numeral, n.text = decimalText d ∧ n.Denotes d := by
  rw [decimalText]
  split
  · next integral => exact exists_integral pos integral.2.2 integral.1
  · next other =>
    split
    · rcases Int.lt_or_le 0 d.point with point | point
      · exact exists_fraction pos point (by omega)
      · exact exists_small point
    · exact exists_scientific pos

end

theorem shortest?_zero {x : Binary64} (zero : x.magnitudeBits = 0) :
    Decimal.shortest? x = some ⟨0, 0⟩ := by
  rw [Decimal.shortest?, Binary64.parts, zero]
  rfl

theorem exists_numeral_float {x : Binary64} (finite : x.isFinite = true) :
    ∃ n : Numeral, floatText x = (if x.isNegative then '-' :: n.text else n.text) ∧
      number? x.isNegative n.whole n.fraction n.exponent = some (float x) := by
  have number {n : Numeral} (parts : n.fraction.isSome = true ∨ n.exponent.isSome = true)
      (nearest : Decimal.nearest x.isNegative n.decimal = x) :
      number? x.isNegative n.whole n.fraction n.exponent = some (float x) := by
    rw [n.number?_eq parts, nearest, finite?, if_pos finite]
  by_cases zero : x.magnitudeBits = 0
  · refine ⟨⟨['0'], some ['0'], none, .zero, fraction_zero⟩, ?_, number (.inl rfl) ?_⟩
    · simp only [floatText, shortest?_zero zero, finite, and_true]
      rfl
    · rw [Decimal.nearest_zero _ rfl, ← zero, Binary64.ofMagnitude_magnitudeBits]
  · obtain ⟨d, shortest, pos, nearest⟩ := Decimal.nearest_shortest? finite zero
    obtain ⟨n, text, denotes⟩ := exists_numeral pos
    refine ⟨n, ?_, number denotes.parts ?_⟩
    · rw [text]
      obtain ⟨digits, e⟩ := d
      obtain ⟨digits, rfl⟩ := Nat.exists_eq_add_one.mpr pos
      simp only [floatText, shortest, finite, and_true]
    · rw [Decimal.nearest_congr _ denotes.value, nearest]

theorem floatText_eq_cons {x : Binary64} (finite : x.isFinite = true) :
    ∃ c cs, floatText x = c :: cs ∧ (Literal.isDigit c = true ∨ c = '-') := by
  obtain ⟨n, text, -⟩ := exists_numeral_float finite
  obtain ⟨c, cs, front, digit⟩ := n.text_eq_cons
  rw [text]
  split
  · exact ⟨'-', _, rfl, .inr rfl⟩
  · exact ⟨c, cs, front, .inl digit⟩

/-- The numeral of a finite float is read back as the float. -/
theorem scanNumber_floatText {x : Binary64} (finite : x.isFinite = true) {tail : List Char}
    (ends : EndsNumber tail) : scanNumber (floatText x ++ tail) = some (float x, tail) := by
  obtain ⟨n, text, number⟩ := exists_numeral_float finite
  rw [text, scanNumber_text n x.isNegative ends, number, Option.map_some]

end Json

end WireRecords
