import WireRecords.Bytes
import Mathlib.Data.List.Induction
import Mathlib.Data.List.Perm.Basic
import Mathlib.Data.Nat.Digits.Defs

/-!
# Words as digits

The bytes of a word are the base-256 digits of its number, in the little byte order from the lowest
one up and in the big byte order from the highest one down. So a number is read back as far as the
window holds it, and a window is written back as it was.
-/

namespace WireRecords

namespace Bytes

/-- The `width` lowest base-256 digits of a number, the least significant first. -/
def littleEndian : Nat → Nat → Bytes
  | 0, _ => []
  | width + 1, n => UInt8.ofNat n :: littleEndian width (n / 256)

/-- The number whose base-256 digits, the least significant first, are the given bytes. -/
def ofLittleEndian : Bytes → Nat
  | [] => 0
  | b :: bs => b.toNat + 256 * ofLittleEndian bs

theorem littleEndian_ofLittleEndian (bs : Bytes) :
    littleEndian bs.length (ofLittleEndian bs) = bs := by
  induction bs with
  | nil => rfl
  | cons b bs ih =>
    have hb : b.toNat < 256 := b.toNat_lt
    have hq : (b.toNat + 256 * ofLittleEndian bs) / 256 = ofLittleEndian bs := by omega
    have hr : UInt8.ofNat (b.toNat + 256 * ofLittleEndian bs) = b := by
      apply UInt8.toNat.inj
      simp
    simp only [List.length_cons, littleEndian, ofLittleEndian, hq, hr, ih]

theorem ofLittleEndian_littleEndian (width n : Nat) :
    ofLittleEndian (littleEndian width n) = n % 256 ^ width := by
  induction width generalizing n with
  | zero => simp [littleEndian, ofLittleEndian, Nat.mod_one]
  | succ width ih =>
    have hb : (UInt8.ofNat n).toNat = n % 256 := by simp
    rw [littleEndian, ofLittleEndian, ih, hb, Nat.pow_succ', Nat.mod_mul]

theorem ofLittleEndian_lt (bs : Bytes) : ofLittleEndian bs < 256 ^ bs.length := by
  induction bs with
  | nil => simp [ofLittleEndian]
  | cons b bs ih =>
    have hb : b.toNat < 256 := b.toNat_lt
    simp only [ofLittleEndian, List.length_cons, Nat.pow_succ]
    omega

theorem ofLittleEndian_eq_ofDigits (bs : Bytes) :
    ofLittleEndian bs = Nat.ofDigits 256 (bs.map UInt8.toNat) := by
  induction bs with
  | nil => rfl
  | cons b bs ih =>
    rw [ofLittleEndian, ih, List.map_cons, Nat.ofDigits_cons]

theorem ofLittleEndian_concat (bs : Bytes) (b : UInt8) :
    ofLittleEndian (bs ++ [b]) = ofLittleEndian bs + 256 ^ bs.length * b.toNat := by
  rw [ofLittleEndian_eq_ofDigits, ofLittleEndian_eq_ofDigits, List.map_append, Nat.ofDigits_append,
    List.length_map, List.map_singleton, Nat.ofDigits_singleton]

end Bytes

namespace Endian

open Bytes

theorem toNat_getElem_encode {e : Endian} {width n i : Nat}
    (h : i < (e.encode width n).length) :
    (e.encode width n)[i].toNat = n / 2 ^ e.place width i % 256 := by
  have cut (m : Nat) : m &&& 0xFF = m % 256 := Nat.and_two_pow_sub_one_eq_mod m 8
  simp only [encode, List.getElem_map, List.getElem_range, cut, Nat.shiftRight_eq_div_pow]
  simp

theorem encode_big (width n : Nat) : big.encode width n = (little.encode width n).reverse := by
  apply List.ext_getElem (by simp)
  intro i h _
  apply UInt8.toNat.inj
  rw [toNat_getElem_encode h, List.getElem_reverse, toNat_getElem_encode, length_encode]
  rfl

theorem encode_little (width n : Nat) : little.encode width n = littleEndian width n := by
  induction width generalizing n with
  | zero => rfl
  | succ width ih =>
    have first : UInt8.ofNat ((n >>> 0) &&& 0xFF) = UInt8.ofNat n := by
      apply UInt8.toNat.inj
      simp [Nat.and_two_pow_sub_one_eq_mod n 8]
    have next (i : Nat) : n >>> (8 * (i + 1)) = (n / 256) >>> (8 * i) := by
      rw [Nat.mul_succ, Nat.add_comm, Nat.shiftRight_add, Nat.shiftRight_eq_div_pow n 8]
    rw [littleEndian, ← ih, encode, List.range_succ_eq_map, List.map_cons, List.map_map]
    simp only [place, Nat.mul_zero, first, encode, Function.comp_def, Nat.succ_eq_add_one, next]

theorem decode_little (bs : Bytes) : little.decode bs = ofLittleEndian bs := by
  -- by the last byte, which lies above all the others
  induction bs using List.reverseRecOn with
  | nil => rfl
  | append_singleton bs b ih =>
    have below : ofLittleEndian bs < 2 ^ (8 * bs.length) := by
      rw [Nat.pow_mul]
      exact ofLittleEndian_lt bs
    calc little.decode (bs ++ [b])
      _ = little.decode bs ||| b.toNat <<< (8 * bs.length) := by
        simp only [decode, overlay, place, List.mapIdx_concat, List.foldl_append, List.foldl_cons,
          List.foldl_nil]
      _ = b.toNat <<< (8 * bs.length) + ofLittleEndian bs := by
        rw [ih, Nat.or_comm, Nat.shiftLeft_add_eq_or_of_lt below]
      _ = ofLittleEndian (bs ++ [b]) := by
        rw [ofLittleEndian_concat, Nat.shiftLeft_eq, Nat.pow_mul, Nat.add_comm, Nat.mul_comm]

theorem decode_big (bs : Bytes) : big.decode bs = ofLittleEndian bs.reverse := by
  have comm : RightCommutative fun m n : Nat => m ||| n :=
    ⟨fun m n k => by rw [Nat.or_assoc, Nat.or_comm n, ← Nat.or_assoc]⟩
  have mirrored : big.overlay bs = little.overlay bs.reverse := by
    simp only [overlay, place, List.mapIdx_reverse]
    exact ((List.reverse_perm _).foldl_eq 0).symm
  rw [decode, mirrored, ← decode, decode_little]

theorem decode_lt (e : Endian) (bs : Bytes) : e.decode bs < 256 ^ bs.length := by
  cases e with
  | little =>
    rw [decode_little]
    exact ofLittleEndian_lt bs
  | big =>
    rw [decode_big, ← List.length_reverse]
    exact ofLittleEndian_lt bs.reverse

theorem decode_encode (e : Endian) (width n : Nat) :
    e.decode (e.encode width n) = n % 256 ^ width := by
  cases e with
  | little => rw [decode_little, encode_little, ofLittleEndian_littleEndian]
  | big => rw [decode_big, encode_big, List.reverse_reverse, encode_little,
      ofLittleEndian_littleEndian]

theorem encode_decode (e : Endian) (bs : Bytes) : e.encode bs.length (e.decode bs) = bs := by
  cases e with
  | little => rw [decode_little, encode_little, littleEndian_ofLittleEndian]
  | big =>
    have restored := littleEndian_ofLittleEndian bs.reverse
    rw [List.length_reverse] at restored
    rw [decode_big, encode_big, encode_little, restored, List.reverse_reverse]

end Endian

end WireRecords
