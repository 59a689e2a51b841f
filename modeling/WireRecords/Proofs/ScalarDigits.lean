import WireRecords.Proofs.Scalar
import Mathlib.Logic.Function.Basic

/-!
# The digits of a primitive's value

A value travels as its residue modulo the number of bit patterns, which is the value's two's
complement if it is negative: the byte at each position is one base-256 digit of it. Windows of the
primitive's width and its values stand for each other one to one, truth values apart. A single byte
has but one form, whatever byte order is asked for.
-/

namespace WireRecords

theorem Primitive.patterns_eq_two_pow (p : Primitive) :
    (p.patterns : Int) = 2 ^ (8 * p.byteLen) := by
  rw [patterns_eq_pow, Nat.cast_pow, pow_mul]
  rfl

namespace Endian

theorem encode_one (e : Endian) (n : Nat) : e.encode 1 n = [UInt8.ofNat n] := by
  have low : UInt8.ofNat (n &&& 0xFF) = UInt8.ofNat n := by
    apply UInt8.toNat.inj
    simp [Nat.and_two_pow_sub_one_eq_mod n 8]
  cases e <;> exact congrArg (fun b => [b]) low

theorem decode_singleton (e : Endian) (x : UInt8) : e.decode [x] = x.toNat := by
  cases e <;> simp [decode_little, decode_big, Bytes.ofLittleEndian]

end Endian

namespace Scalar

variable {p : Primitive}

theorem toBits_eq_emod (v : Scalar p) : (v.toBits : Int) = v.val % 2 ^ (8 * p.byteLen) := by
  have positive : (0 : Int) < 2 ^ (8 * p.byteLen) := by positivity
  have := Int.emod_nonneg v.val positive.ne'
  rw [toBits, p.patterns_eq_two_pow]
  omega

theorem toNat_getElem_encode_little (v : Scalar p) {i : Nat} (h : i < (v.encode .little).length) :
    ((v.encode .little)[i].toNat : Int) = v.val % 2 ^ (8 * p.byteLen) / 256 ^ i % 256 := by
  have digit : (v.encode .little)[i].toNat = v.toBits / 2 ^ (8 * i) % 256 :=
    Endian.toNat_getElem_encode h
  rw [digit, ← v.toBits_eq_emod, pow_mul]
  norm_cast

theorem decode_bijective (e : Endian) (hp : p ≠ .boolean) :
    Function.Bijective fun w : { w : Bytes // w.length = p.byteLen } => decode p e w.1 := by
  constructor
  · intro w w' same
    have written : (decode p e w.1).encode e = (decode p e w'.1).encode e :=
      congrArg (encode e) same
    rw [encode_decode e hp w.2, encode_decode e hp w'.2] at written
    exact Subtype.ext written
  · intro v
    exact ⟨⟨v.encode e, e.length_encode _ _⟩, decode_encode e v⟩

theorem encode_eq_encodeByte (h : p.width = .one) (e : Endian) (v : Scalar p) :
    v.encode e = v.encodeByte := by
  rw [encode, Primitive.byteLen_of_width h, Endian.encode_one, encodeByte]

theorem decode_eq_decodeByte (p : Primitive) (e : Endian) {w : Bytes} (h : w.length = 1) :
    decode p e w = decodeByte p w := by
  obtain ⟨x, rfl⟩ := List.length_eq_one_iff.mp h
  rw [decode, Endian.decode_singleton, decodeByte, List.headD_cons]

theorem encodeOrdered_eq_encodeByte (h : p.width = .one) (order : ByteOrder) (v : Scalar p) :
    v.encodeOrdered order = v.encodeByte := by
  cases order with
  | big => exact encode_eq_encodeByte h .big v
  | little => exact encode_eq_encodeByte h .little v
  | unspecified => rfl
  | unknown code => rfl

theorem decodeOrdered_eq_decodeByte (p : Primitive) (order : ByteOrder) {w : Bytes}
    (h : w.length = 1) : decodeOrdered p order w = decodeByte p w := by
  cases order with
  | big => exact decode_eq_decodeByte p .big h
  | little => exact decode_eq_decodeByte p .little h
  | unspecified => rfl
  | unknown code => rfl

/-- The bytes of a value are the base-256 digits of its residue, from the lowest one up in the
little byte order and from the highest one down in the big one, and each order reads back what it
wrote. Except for truth values, a window is also written back as it was read, so that reading is one
to one and reaches every value. For single bytes all orders and none are the same. -/
theorem encode_digits (p : Primitive) :
    (∀ v : Scalar p,
      (v.encode .little).length = p.byteLen ∧
      (∀ i b, (v.encode .little)[i]? = some b →
        (b.toNat : Int) = v.val % 2 ^ (8 * p.byteLen) / 256 ^ i % 256) ∧
      v.encode .big = (v.encode .little).reverse ∧
      ∀ e, decode p e (v.encode e) = v) ∧
    (p ≠ .boolean → ∀ e,
      (∀ w : Bytes, w.length = p.byteLen → (decode p e w).encode e = w) ∧
      Function.Bijective fun w : { w : Bytes // w.length = p.byteLen } => decode p e w.1) ∧
    (p.width = .one → ∀ order e,
      (∀ v : Scalar p, v.encodeOrdered order = v.encodeByte ∧ v.encode e = v.encodeByte) ∧
      ∀ w : Bytes, w.length = 1 →
        decodeOrdered p order w = decodeByte p w ∧ decode p e w = decodeByte p w) := by
  refine ⟨?_, ?_, ?_⟩
  · intro v
    refine ⟨Endian.length_encode _ _ _, ?_, Endian.encode_big _ _, fun e => decode_encode e v⟩
    intro i b found
    obtain ⟨inside, rfl⟩ := List.getElem?_eq_some_iff.mp found
    exact v.toNat_getElem_encode_little inside
  · intro hp e
    exact ⟨fun w length => encode_decode e hp length, decode_bijective e hp⟩
  · intro single order e
    constructor
    · intro v
      exact ⟨encodeOrdered_eq_encodeByte single order v, encode_eq_encodeByte single e v⟩
    · intro w length
      exact ⟨decodeOrdered_eq_decodeByte p order length, decode_eq_decodeByte p e length⟩

/-- A negative enumerator, in four bytes; a window that reads as the least value of its type; and a
character whose byte has the highest bit set. -/
theorem encode_digits_negative :
    let level : Primitive := .enumeration "Level" (.signed .four)
    let low : Scalar level := ⟨-258, by decide, by decide⟩
    let window : Bytes := [0x80, 0, 0, 0]
    let accent : Scalar (.integer .char) := ⟨-23, by decide, by decide⟩
    (∀ i b, (low.encode .little)[i]? = some b →
        (b.toNat : Int) = -258 % 2 ^ 32 / 256 ^ i % 256) ∧
      low.encode .little = [0xFE, 0xFE, 0xFF, 0xFF] ∧
      low.encode .big = [0xFF, 0xFF, 0xFE, 0xFE] ∧
      level ≠ .boolean ∧ window.length = level.byteLen ∧
      (decode level .big window).val = -2147483648 ∧
      (decode level .big window).encode .big = window ∧
      (Primitive.integer .char).width = .one ∧ accent.encodeOrdered .unspecified = [0xE9] ∧
      accent.encodeOrdered .big = accent.encodeOrdered .unspecified := by
  intro level low window accent
  obtain ⟨values, windows, -⟩ := encode_digits level
  obtain ⟨-, -, single⟩ := encode_digits (.integer .char)
  obtain ⟨-, digits, reversed, -⟩ := values low
  obtain ⟨restored, -⟩ := windows (by decide) .big
  obtain ⟨ordered, -⟩ := single rfl .big .big
  obtain ⟨unordered, -⟩ := single rfl .unspecified .big
  have little : low.encode .little = [0xFE, 0xFE, 0xFF, 0xFF] := by decide
  refine ⟨digits, little, ?_, by decide, rfl, by decide, restored window rfl, rfl, by decide, ?_⟩
  · rw [reversed, little]
    rfl
  · rw [(ordered accent).1, (unordered accent).1]

end Scalar

end WireRecords
