import WireRecords.JsonView
import WireRecords.Proofs.Scalar

/-!
# Integers in storage

An integer of a document stands in a 64-bit word, signed or unsigned, and a primitive's limits are
put into a word of the same kind to be compared with it. They keep their value there, and so does an
integer that is cut down to the primitive's width, so what a field takes is told by the integer
alone: it must lie inside the primitive's range.
-/

namespace WireRecords

theorem unsignedWord_ofInt {n : Int} (low : 0 ≤ n) (high : n < 2 ^ 64) :
    ((UInt64.ofInt n).toNat : Int) = n := by
  rw [UInt64.ofInt, UInt64.toNat_ofNat', Int.emod_eq_of_lt low high]
  omega

theorem unsignedWord_toUInt64 (n : Int64) : (n.toUInt64.toNat : Int) = n.toInt % 2 ^ 64 := by
  have small : n.toUInt64.toNat < 2 ^ 64 := n.toUInt64.toNat_lt
  have signed : n.toInt = _ := BitVec.toInt_eq_toNat_cond n.toBitVec
  rw [Int64.toNat_toBitVec] at signed
  rw [signed]
  split <;> omega

namespace Primitive

theorem patterns_dvd (p : Primitive) : (p.patterns : Int) ∣ 2 ^ 64 := by
  rw [patterns]
  cases p.width <;> decide

theorem signed_storage {p : Primitive} (h : p.isSigned = true) :
    -2 ^ 63 ≤ p.least ∧ p.greatest < 2 ^ 63 := by
  have bounds (k : IntKind) (hk : k.isSigned = true) : -2 ^ 63 ≤ k.least ∧ k.greatest < 2 ^ 63 := by
    have few : k.patterns ≤ 2 ^ 64 := k.width.patterns_le
    have := k.patterns_eq
    rw [IntKind.least, IntKind.greatest, if_pos hk, if_pos hk]
    omega
  cases p with
  | integer k => exact bounds k h
  | boolean => cases h
  | byte => cases h
  | enumeration name k => exact bounds k h

theorem unsigned_storage {p : Primitive} (h : p.isSigned = false) :
    p.least = 0 ∧ p.greatest < 2 ^ 64 := by
  have bounds (k : IntKind) (hk : k.isSigned = false) : k.least = 0 ∧ k.greatest < 2 ^ 64 := by
    have few : k.patterns ≤ 2 ^ 64 := k.width.patterns_le
    rw [IntKind.least, IntKind.greatest, hk]
    simp only [Bool.false_eq_true, if_false, true_and]
    omega
  cases p with
  | integer k => exact bounds k h
  | boolean => decide
  | byte => decide
  | enumeration name k => exact bounds k h

/-- The greatest value of any primitive is an unsigned word. -/
theorem toNat_greatest (p : Primitive) : ((UInt64.ofInt p.greatest).toNat : Int) = p.greatest := by
  have high : p.greatest < 2 ^ 64 := by
    cases signed : p.isSigned with
    | true => exact (signed_storage signed).2.trans (by decide)
    | false => exact (unsigned_storage signed).2
  exact unsignedWord_ofInt p.zero_le_greatest high

end Primitive

namespace Scalar

variable {p : Primitive}

theorem ofInt?_val (v : Scalar p) : ofInt? p v.val = some v :=
  dif_pos ⟨v.least_le, v.le_greatest⟩

theorem ofInt?_eq_some_iff {n : Int} {v : Scalar p} : ofInt? p n = some v ↔ n = v.val := by
  constructor
  · intro h
    rw [ofInt?] at h
    split_ifs at h
    cases h
    rfl
  · rintro rfl
    exact v.ofInt?_val

theorem ofInt?_eq_none_iff {n : Int} :
    ofInt? p n = none ↔ n < p.least ∨ p.greatest < n := by
  rw [ofInt?]
  split_ifs with inside
  · simp only [false_iff]
    omega
  · simp only [true_iff]
    omega

theorem ofBits_mod_patterns (p : Primitive) (bits : Nat) :
    ofBits p (bits % p.patterns) = ofBits p bits := by
  have cut (k : IntKind) : k.valueOfBits (bits % k.patterns) = k.valueOfBits bits := by
    simp only [IntKind.valueOfBits, Nat.mod_mod]
  have byte : Primitive.byte.patterns = 256 := rfl
  have truth : Primitive.boolean.patterns = 256 := rfl
  apply Scalar.ext
  cases p with
  | integer k => exact cut k
  | boolean => simp only [ofBits, Primitive.valueOfBits, truth, Nat.mod_mod]
  | byte => simp only [ofBits, Primitive.valueOfBits, byte, Nat.mod_mod]
  | enumeration name k => exact cut k

theorem ofBits_eq_of_emod {bits : Nat} {v : Scalar p}
    (same : (bits : Int) % p.patterns = v.val % p.patterns) : ofBits p bits = v := by
  have kept : bits % p.patterns = v.toBits := by
    rw [toBits, ← same]
    omega
  rw [← ofBits_mod_patterns, kept, ofBits_toBits]

theorem fitsUnsigned_iff {n : UInt64} :
    fitsUnsigned p n = true ↔ (n.toNat : Int) ≤ p.greatest := by
  have limit := p.toNat_greatest
  rw [fitsUnsigned, decide_eq_true_iff, UInt64.le_iff_toNat_le]
  omega

theorem fitsSigned_iff {n : Int64} :
    fitsSigned p n = true ↔ p.least ≤ n.toInt ∧ n.toInt ≤ p.greatest := by
  rw [fitsSigned]
  cases signed : p.isSigned with
  | true =>
    obtain ⟨low, high⟩ := Primitive.signed_storage signed
    have least := p.least_le_zero
    have greatest := p.zero_le_greatest
    rw [if_pos rfl, Bool.and_eq_true, decide_eq_true_iff, decide_eq_true_iff,
      Int64.le_iff_toInt_le, Int64.le_iff_toInt_le, Int64.toInt_ofInt_of_le low (by omega),
      Int64.toInt_ofInt_of_le (by omega) high]
  | false =>
    obtain ⟨least, -⟩ := Primitive.unsigned_storage signed
    have limit := p.toNat_greatest
    have word := unsignedWord_toUInt64 n
    have below : n.toInt < 2 ^ 63 := n.toInt_lt
    rw [if_neg Bool.false_ne_true, Bool.and_eq_true, decide_eq_true_iff, decide_eq_true_iff,
      Int64.le_iff_toInt_le, UInt64.le_iff_toNat_le, least]
    have zero : (0 : Int64).toInt = 0 := rfl
    omega

theorem integerOfJson_unsigned (p : Primitive) (n : UInt64) :
    integerOfJson p (.unsigned n) =
      match ofInt? p n.toNat with
      | some v => .ok v
      | none => .error (.aboveRange n.toNat) := by
  have least := p.least_le_zero
  cases inside : ofInt? p n.toNat with
  | some v =>
    have held := ofInt?_eq_some_iff.mp inside
    have fits : fitsUnsigned p n = true := fitsUnsigned_iff.mpr (held ▸ v.le_greatest)
    have read : ofBits p n.toNat = v := ofBits_eq_of_emod (by rw [held])
    rw [integerOfJson, if_pos fits, read]
  | none =>
    have outside := ofInt?_eq_none_iff.mp inside
    have exceeds : ¬ fitsUnsigned p n = true := by
      rw [fitsUnsigned_iff]
      omega
    rw [integerOfJson, if_neg exceeds]

theorem integerOfJson_signed (p : Primitive) (n : Int64) :
    integerOfJson p (.signed n) =
      match ofInt? p n.toInt with
      | some v => .ok v
      | none => .error (.outsideRange n.toInt) := by
  cases inside : ofInt? p n.toInt with
  | some v =>
    have held := ofInt?_eq_some_iff.mp inside
    have fits : fitsSigned p n = true :=
      fitsSigned_iff.mpr (held ▸ ⟨v.least_le, v.le_greatest⟩)
    -- the word counts modulo 2^64, and the patterns of every width divide that
    have read : ofBits p n.toUInt64.toNat = v := ofBits_eq_of_emod (by
      rw [unsignedWord_toUInt64, Int.emod_emod_of_dvd _ p.patterns_dvd, held])
    rw [integerOfJson, if_pos fits, read]
  | none =>
    have outside := ofInt?_eq_none_iff.mp inside
    have refused : ¬ fitsSigned p n = true := by
      rw [fitsSigned_iff]
      omega
    rw [integerOfJson, if_neg refused]

theorem integerOfJson_eq_ok_iff {j : Json} {v : Scalar p} :
    integerOfJson p j = .ok v ↔ j.integer? = some v.val := by
  cases j with
  | unsigned n =>
    rw [integerOfJson_unsigned, Json.integer?, Option.some.injEq, ← ofInt?_eq_some_iff]
    cases ofInt? p n.toNat <;> simp
  | signed n =>
    rw [integerOfJson_signed, Json.integer?, Option.some.injEq, ← ofInt?_eq_some_iff]
    cases ofInt? p n.toInt <;> simp
  | _ => simp [integerOfJson, Json.integer?]

/-- What is taken does not depend on the storage. -/
theorem toOption_integerOfJson {j : Json} {n : Int} (held : j.integer? = some n) :
    (integerOfJson p j).toOption = ofInt? p n := by
  cases j with
  | unsigned m =>
    cases held
    rw [integerOfJson_unsigned]
    cases ofInt? p m.toNat <;> rfl
  | signed m =>
    cases held
    rw [integerOfJson_signed]
    cases ofInt? p m.toInt <;> rfl
  | _ => cases held

/-- The complaint about an integer outside the range is worded by its storage. -/
theorem integerOfJson_of_outside {j : Json} {n : Int} (held : j.integer? = some n)
    (outside : n < p.least ∨ p.greatest < n) :
    ∃ fault, integerOfJson p j = .error fault ∧
      (fault = .aboveRange n.toNat ∨ fault = .outsideRange n) := by
  have refused := ofInt?_eq_none_iff.mpr outside
  cases j with
  | unsigned m =>
    cases held
    exact ⟨.aboveRange m.toNat, by rw [integerOfJson_unsigned, refused], .inl rfl⟩
  | signed m =>
    cases held
    exact ⟨.outsideRange m.toInt, by rw [integerOfJson_signed, refused], .inr rfl⟩
  | _ => cases held

theorem ofJson_of_ne_boolean (other : p ≠ .boolean) (j : Json) :
    ofJson p j = integerOfJson p j := by
  cases p <;> first | rfl | exact absurd rfl other

/-- An integer in either storage is taken just if it lies inside the primitive's range, and then as
it is. Any other one is refused, and the record that was to hold it with an error that names the
field. Two documents that hold the same integer are both taken, as the same value, or both refused;
how the complaint is worded depends on the storage. -/
theorem integerOfJson_exact (p : Primitive) {j : Json} {n : Int} (held : j.integer? = some n) :
    (∀ v : Scalar p, integerOfJson p j = .ok v ↔ v.val = n) ∧
    ((∃ v, integerOfJson p j = .ok v) ↔ p.least ≤ n ∧ n ≤ p.greatest) ∧
    (¬ (p.least ≤ n ∧ n ≤ p.greatest) → ∃ fault, integerOfJson p j = .error fault ∧
      (fault = .aboveRange n.toNat ∨ fault = .outsideRange n) ∧
      ∀ name (slot : Slot) (rest : Schema) index path ms r, slot.type = p → p ≠ .boolean →
        Entries.find? ms (fieldKey name index) = some j →
        (Schema.leaf name slot rest).ofMembers index path ms r =
          .error (.invalidField (FieldPath.text (path ++ [fieldKey name index])) fault)) ∧
    ∀ j' : Json, j'.integer? = some n →
      (integerOfJson p j').toOption = (integerOfJson p j).toOption := by
  have taken {j : Json} (held : j.integer? = some n) (v : Scalar p) :
      integerOfJson p j = .ok v ↔ v.val = n := by
    rw [integerOfJson_eq_ok_iff, held, Option.some.injEq, eq_comm]
  refine ⟨taken held, ?_, ?_, ?_⟩
  · constructor
    · rintro ⟨v, read⟩
      rw [← (taken held v).mp read]
      exact ⟨v.least_le, v.le_greatest⟩
    · rintro ⟨low, high⟩
      exact ⟨⟨n, low, high⟩, (taken held _).mpr rfl⟩
  · intro outside
    obtain ⟨fault, refused, wording⟩ := integerOfJson_of_outside (p := p) held (by omega)
    refine ⟨fault, refused, wording, ?_⟩
    rintro name slot rest index path ms r rfl integer found
    have member : ofJson slot.type j = .error fault := by
      rw [ofJson_of_ne_boolean integer, refused]
    simp only [Schema.ofMembers, found, member]
  · intro j' held'
    rw [toOption_integerOfJson held', toOption_integerOfJson held]

/-- The greatest unsigned word and the least signed one are each taken by one of the widest types
and refused by the other; 255 is taken by a code unit in either storage, and refused by a character.
-/
theorem integerOfJson_exact_limits :
    let greatest : Json := .unsigned 18446744073709551615
    let least : Json := .signed (-9223372036854775808)
    let codeUnit : Primitive := .integer .char8
    greatest.integer? = some 18446744073709551615 ∧ (∃ v, integerOfJson .u64 greatest = .ok v) ∧
      (¬ ∃ v, integerOfJson .i64 greatest = .ok v) ∧
      least.integer? = some (-9223372036854775808) ∧ (∃ v, integerOfJson .i64 least = .ok v) ∧
      (∃ fault, integerOfJson .u64 least = .error fault) ∧
      (Json.signed 255).integer? = some 255 ∧ (Json.unsigned 255).integer? = some 255 ∧
      (integerOfJson codeUnit (.signed 255)).toOption =
        (integerOfJson codeUnit (.unsigned 255)).toOption ∧
      (∃ v, integerOfJson codeUnit (.signed 255) = .ok v) ∧
      ∃ fault, integerOfJson (.integer .char) (.unsigned 255) = .error fault ∧
        (fault = .aboveRange 255 ∨ fault = .outsideRange 255) := by
  intro greatest least codeUnit
  have high : greatest.integer? = some 18446744073709551615 := rfl
  have low : least.integer? = some (-9223372036854775808) := rfl
  have signed : (Json.signed 255).integer? = some 255 := rfl
  have unsigned : (Json.unsigned 255).integer? = some 255 := rfl
  obtain ⟨-, u64_high, -, -⟩ := integerOfJson_exact .u64 high
  obtain ⟨-, i64_high, -, -⟩ := integerOfJson_exact .i64 high
  obtain ⟨-, i64_low, -, -⟩ := integerOfJson_exact .i64 low
  obtain ⟨-, -, u64_low, -⟩ := integerOfJson_exact .u64 low
  obtain ⟨-, unit_signed, -, -⟩ := integerOfJson_exact codeUnit signed
  obtain ⟨-, -, -, storages⟩ := integerOfJson_exact codeUnit unsigned
  obtain ⟨-, -, char_unsigned, -⟩ := integerOfJson_exact (.integer .char) unsigned
  obtain ⟨below, refused_below, -, -⟩ := u64_low (by decide)
  obtain ⟨above, refused_above, wording, -⟩ := char_unsigned (by decide)
  exact ⟨high, u64_high.mpr (by decide), mt i64_high.mp (by decide), low,
    i64_low.mpr (by decide), ⟨below, refused_below⟩, signed, unsigned, storages _ signed,
    unit_signed.mpr (by decide), above, refused_above, wording⟩

end Scalar

end WireRecords
