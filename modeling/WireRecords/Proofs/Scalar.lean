import WireRecords.Proofs.Digits
import WireRecords.Schema
import Mathlib.Algebra.Order.Group.Int
import Mathlib.Tactic.Ring

/-!
# Bit patterns and their values

Every value of a primitive comes back from its bit pattern, and every pattern that fits the width
comes back from its value, truth values apart: a truth value keeps only whether the byte was zero.
The same two laws hold of the windows that a declared field writes and reads.
-/

namespace WireRecords

namespace IntKind

/-- A value is read back from its residue: below zero the residue lies in the upper half. -/
theorem valueOfBits_emod {k : IntKind} {n : Int} (hl : k.least ≤ n) (hg : n ≤ k.greatest) :
    k.valueOfBits (n % (k.patterns : Int)).toNat = n := by
  have hp := k.patterns_eq
  have hh := k.half_pos
  rw [least] at hl
  rw [greatest] at hg
  have residue : n % (k.patterns : Int) = if n < 0 then n + k.patterns else n := by
    split
    · rw [← Int.add_emod_right]
      exact Int.emod_eq_of_lt (by split at hl <;> omega) (by omega)
    · exact Int.emod_eq_of_lt (by omega) (by split at hg <;> omega)
  have small : (n % (k.patterns : Int)).toNat < k.patterns := by
    have := Int.emod_lt_of_pos n (show (0 : Int) < k.patterns by omega)
    omega
  simp only [valueOfBits, Nat.mod_eq_of_lt small]
  rw [residue]
  cases hs : k.isSigned <;>
    simp only [hs, Bool.false_eq_true, if_true, if_false, true_and, false_and] at hl hg ⊢ <;>
    split_ifs <;> omega

theorem emod_valueOfBits (k : IntKind) (bits : Nat) :
    (k.valueOfBits bits % (k.patterns : Int)).toNat = bits % k.patterns := by
  have pos : 0 < k.patterns := by
    have := k.half_pos
    rw [patterns_eq]
    omega
  have small := Nat.mod_lt bits pos
  have keep : ((bits % k.patterns : Nat) : Int) % (k.patterns : Int) = (bits % k.patterns : Nat) :=
    Int.emod_eq_of_lt (by omega) (by omega)
  simp only [valueOfBits]
  split
  · rw [Int.sub_emod_right, keep, Int.toNat_natCast]
  · rw [keep, Int.toNat_natCast]

end IntKind

theorem Width.patterns_le (w : Width) : w.patterns ≤ 2 ^ 64 := by cases w <;> decide

namespace Primitive

theorem patterns_eq_pow (p : Primitive) : p.patterns = 256 ^ p.byteLen := by
  rw [patterns, byteLen]
  cases p.width <;> rfl

theorem pow_byteLen_le (p : Primitive) : 256 ^ p.byteLen ≤ 2 ^ 64 := by
  rw [← patterns_eq_pow]
  exact p.width.patterns_le

theorem byteLen_pos (p : Primitive) : 0 < p.byteLen := p.width.bytes_pos

end Primitive

def truthByte (x : UInt8) : UInt8 := if x = 0 then 0 else 1

namespace Scalar

theorem toBits_lt {p : Primitive} (v : Scalar p) : v.toBits < 256 ^ p.byteLen := by
  have pos : 0 < p.patterns := by
    rw [p.patterns_eq_pow]
    exact Nat.pow_pos (by decide)
  have := Int.emod_lt_of_pos v.val (show (0 : Int) < p.patterns by omega)
  rw [← p.patterns_eq_pow, toBits]
  omega

theorem ofBits_toBits {p : Primitive} (v : Scalar p) : ofBits p v.toBits = v := by
  apply Scalar.ext
  obtain ⟨n, hl, hg⟩ := v
  cases p with
  | integer k => exact IntKind.valueOfBits_emod hl hg
  | enumeration _ k => exact IntKind.valueOfBits_emod hl hg
  | boolean =>
    simp only [Primitive.least, Primitive.greatest] at hl hg
    have two : n = 0 ∨ n = 1 := by omega
    rcases two with rfl | rfl <;> rfl
  | byte =>
    simp only [Primitive.least, Primitive.greatest] at hl hg
    have hp : Primitive.byte.patterns = 256 := rfl
    simp only [ofBits, toBits, Primitive.valueOfBits, hp]
    omega

/-- Truth values apart, every bit pattern of the width comes back from its value. -/
theorem toBits_ofBits {p : Primitive} (h : p ≠ .boolean) {bits : Nat}
    (hb : bits < 256 ^ p.byteLen) : (ofBits p bits).toBits = bits := by
  rw [← p.patterns_eq_pow] at hb
  have keep := Nat.mod_eq_of_lt hb
  cases p with
  | integer k => exact (k.emod_valueOfBits bits).trans keep
  | enumeration _ k => exact (k.emod_valueOfBits bits).trans keep
  | boolean => exact absurd rfl h
  | byte =>
    have hp : Primitive.byte.patterns = 256 := rfl
    simp only [ofBits, toBits, Primitive.valueOfBits, hp]
    omega

theorem toBits_ofBits_boolean (x : UInt8) :
    (ofBits .boolean x.toNat).toBits = (truthByte x).toNat := by
  have hx : x.toNat % 256 = x.toNat := Nat.mod_eq_of_lt x.toNat_lt
  by_cases h : x = 0
  · subst h
    rfl
  · have hz : x.toNat ≠ 0 := fun hn => h (UInt8.toNat.inj hn)
    simp only [ofBits, Primitive.valueOfBits, hx, hz, truthByte, h, if_false]
    rfl

theorem decodeByte_encodeByte {p : Primitive} (h : p.width = .one) (v : Scalar p) :
    decodeByte p v.encodeByte = v := by
  have hv := v.toBits_lt
  rw [Primitive.byteLen_of_width h] at hv
  have low : (UInt8.ofNat v.toBits).toNat = v.toBits := by simpa using hv
  rw [decodeByte, encodeByte, List.headD_cons, low, ofBits_toBits]

theorem decode_encode {p : Primitive} (e : Endian) (v : Scalar p) :
    decode p e (v.encode e) = v := by
  rw [decode, encode, Endian.decode_encode, Nat.mod_eq_of_lt v.toBits_lt, ofBits_toBits]

theorem encodeByte_decodeByte {p : Primitive} (h : p.width = .one) (hp : p ≠ .boolean)
    (x : UInt8) : (decodeByte p [x]).encodeByte = [x] := by
  have hx : x.toNat < 256 ^ p.byteLen := by
    rw [Primitive.byteLen_of_width h]
    exact x.toNat_lt
  rw [decodeByte, encodeByte, List.headD_cons, toBits_ofBits hp hx, UInt8.ofNat_toNat]

theorem encodeByte_decodeByte_boolean (x : UInt8) :
    (decodeByte .boolean [x]).encodeByte = [truthByte x] := by
  rw [decodeByte, encodeByte, List.headD_cons, toBits_ofBits_boolean, UInt8.ofNat_toNat]

theorem encode_decode {p : Primitive} (e : Endian) (hp : p ≠ .boolean) {bs : Bytes}
    (hb : bs.length = p.byteLen) : (decode p e bs).encode e = bs := by
  have hd : e.decode bs < 256 ^ p.byteLen := by
    rw [← hb]
    exact e.decode_lt bs
  rw [decode, encode, toBits_ofBits hp hd, ← hb, e.encode_decode]

end Scalar

namespace Slot

theorem byteLen_pos (s : Slot) : 0 < s.byteLen := s.type.byteLen_pos

theorem byteLen_boolean {s : Slot} (h : s.type = .boolean) : s.byteLen = 1 := by
  rw [byteLen, h]
  rfl

theorem decode_encode (s : Slot) (v : Scalar s.type) : s.decode (s.encode v) = v := by
  cases s with
  | single t h => exact Scalar.decodeByte_encodeByte h v
  | ordered t e h =>
    rw [encode_ordered, decode_ordered]
    exact Scalar.decode_encode e v

theorem encode_decode {s : Slot} (h : s.type ≠ .boolean) {bs : Bytes} (hb : bs.length = s.byteLen) :
    s.encode (s.decode bs) = bs := by
  cases s with
  | single t hw =>
    obtain ⟨x, rfl⟩ := List.length_eq_one_iff.mp (hb.trans (Primitive.byteLen_of_width hw))
    exact Scalar.encodeByte_decodeByte hw h x
  | ordered t e hw =>
    rw [encode_ordered, decode_ordered]
    exact Scalar.encode_decode e h hb

theorem encode_decode_boolean {s : Slot} (h : s.type = .boolean) (x : UInt8) :
    s.encode (s.decode [x]) = [truthByte x] := by
  cases s with
  | single t hw =>
    cases h
    exact Scalar.encodeByte_decodeByte_boolean x
  | ordered t e hw =>
    cases h
    exact absurd rfl hw

theorem encode_decode_map (s : Slot) {bs : Bytes} (hb : bs.length = s.byteLen) :
    s.encode (s.decode bs) = bs.map fun x => if s.type = .boolean then truthByte x else x := by
  by_cases h : s.type = .boolean
  · obtain ⟨x, rfl⟩ := List.length_eq_one_iff.mp (hb.trans (byteLen_boolean h))
    simp only [encode_decode_boolean h, h, if_true, List.map_cons, List.map_nil]
  · simp only [encode_decode h hb, h, if_false, List.map_id']

end Slot

end WireRecords
