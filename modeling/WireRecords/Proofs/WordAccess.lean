import WireRecords.Proofs.Digits
import WireRecords.Proofs.Window
import WireRecords.Word
import Mathlib.Algebra.BigOperators.Intervals

/-!
# Words in their windows

A word that is written changes its own window and nothing else, and is read back from there. Read in
the other byte order it has its bytes reversed. So words in windows that have no position in common
are written in any order and read as if the other one were not there.
-/

namespace WireRecords

namespace Bytes

variable {buf as bs : Bytes} {start start' len : Nat}

theorem getElem?_overwrite (fits : start + bs.length ≤ buf.length) (p : Nat) :
    (overwrite buf start bs)[p]? =
      if start ≤ p ∧ p < start + bs.length then bs[p - start]? else buf[p]? := by
  have front : (buf.take start).length = start := List.length_take_of_le (by omega)
  -- in front of the window, inside it, behind it
  rw [overwrite, List.append_assoc]
  rcases Nat.lt_or_ge p start with before | behind
  · rw [List.getElem?_append_left (by omega), List.getElem?_take_of_lt before, if_neg (by omega)]
  · rw [List.getElem?_append_right (by omega), front]
    by_cases inside : p < start + bs.length
    · rw [List.getElem?_append_left (by omega), if_pos ⟨behind, inside⟩]
    · rw [List.getElem?_append_right (by omega), List.getElem?_drop, if_neg (by omega)]
      congr 1
      omega

theorem window_overwrite (fits : start + bs.length ≤ buf.length) :
    window (overwrite buf start bs) start bs.length = bs := by
  apply List.ext_getElem?
  intro i
  rw [getElem?_window, getElem?_overwrite fits]
  by_cases inside : i < bs.length
  · rw [if_pos inside, if_pos (by omega), Nat.add_sub_cancel_left]
  · rw [if_neg inside, List.getElem?_eq_none (by omega)]

theorem overwrite_window (fits : start + len ≤ buf.length) :
    overwrite buf start (window buf start len) = buf := by
  have length := length_window fits
  apply List.ext_getElem?
  intro p
  rw [getElem?_overwrite (by omega), length]
  split_ifs with inside
  · rw [getElem?_window, if_pos (by omega), Nat.add_sub_cancel' inside.1]
  · rfl

theorem window_overwrite_of_apart (fits : start + bs.length ≤ buf.length)
    (apart : Window.Apart ⟨start, bs.length⟩ ⟨start', len⟩) :
    window (overwrite buf start bs) start' len = window buf start' len := by
  apply List.ext_getElem?
  intro i
  rw [getElem?_window, getElem?_window]
  split_ifs with inside
  · have outside : ¬ (start ≤ start' + i ∧ start' + i < start + bs.length) := fun written =>
      apart (start' + i) written ⟨Nat.le_add_right _ _, Nat.add_lt_add_left inside start'⟩
    rw [getElem?_overwrite fits, if_neg outside]
  · rfl

theorem overwrite_comm (fits : start + as.length ≤ buf.length)
    (fits' : start' + bs.length ≤ buf.length)
    (apart : Window.Apart ⟨start, as.length⟩ ⟨start', bs.length⟩) :
    overwrite (overwrite buf start as) start' bs =
      overwrite (overwrite buf start' bs) start as := by
  apply List.ext_getElem?
  intro p
  rw [getElem?_overwrite (by rwa [length_overwrite fits]), getElem?_overwrite fits,
    getElem?_overwrite (by rwa [length_overwrite fits']), getElem?_overwrite fits']
  -- the two orders differ only where both have written
  split_ifs with second first
  · exact absurd second (apart p first)
  · rfl
  · rfl
  · rfl

/-- The number of `width` bytes that has the bytes of `n` in reverse, the lowest one on top. -/
def swapped (width n : Nat) : Nat :=
  ∑ i ∈ Finset.range width, n / 256 ^ i % 256 * 256 ^ (width - 1 - i)

theorem swapped_succ (width n : Nat) :
    swapped (width + 1) n = swapped width (n / 256) + n % 256 * 256 ^ width := by
  -- all bytes but the lowest one keep their places under it
  have others : ∑ i ∈ Finset.range width,
      n / 256 ^ (i + 1) % 256 * 256 ^ (width + 1 - 1 - (i + 1)) = swapped width (n / 256) := by
    apply Finset.sum_congr rfl
    intro i _
    rw [Nat.pow_succ', Nat.div_div_eq_div_mul, Nat.add_sub_cancel, Nat.add_comm i, Nat.sub_add_eq]
  rw [swapped, Finset.sum_range_succ', others]
  simp

theorem ofLittleEndian_reverse_littleEndian (width n : Nat) :
    ofLittleEndian (littleEndian width n).reverse = swapped width n := by
  induction width generalizing n with
  | zero => rfl
  | succ width ih =>
    have length : (littleEndian width (n / 256)).reverse.length = width := by
      rw [List.length_reverse, ← Endian.encode_little, Endian.length_encode]
    rw [littleEndian, List.reverse_cons, ofLittleEndian_concat, ih, length, swapped_succ,
      Nat.mul_comm]
    simp

end Bytes

namespace Endian

def other : Endian → Endian
  | big => little
  | little => big

theorem decode_other_encode (e : Endian) (width n : Nat) :
    e.other.decode (e.encode width n) = Bytes.swapped width n := by
  rw [← Bytes.ofLittleEndian_reverse_littleEndian]
  cases e with
  | big => rw [other, decode_little, encode_big, encode_little]
  | little => rw [other, decode_big, encode_little]

end Endian

namespace Word

variable {buf : Bytes} {start start' n m : Nat} {width width' : Width}

def span (start : Nat) (width : Width) : Window := ⟨start, width.bytes⟩

theorem length_write (e : Endian) (fits : start + width.bytes ≤ buf.length) :
    (write e width buf start n).length = buf.length := by
  rw [write, Bytes.length_overwrite (by rwa [e.length_encode])]

theorem getElem?_write (e : Endian) (fits : start + width.bytes ≤ buf.length) {p : Nat}
    (outside : p ∉ span start width) : (write e width buf start n)[p]? = buf[p]? := by
  have length := e.length_encode width.bytes n
  rw [write, Bytes.getElem?_overwrite (by omega), length]
  exact if_neg outside

theorem read_write (e e' : Endian) (fits : start + width.bytes ≤ buf.length) :
    read e' width (write e width buf start n) start = e'.decode (e.encode width.bytes n) := by
  have length := e.length_encode width.bytes n
  have written : Bytes.window (write e width buf start n) start (e.encode width.bytes n).length =
      e.encode width.bytes n := Bytes.window_overwrite (by omega)
  rw [length] at written
  rw [read, written]

theorem write_read (e : Endian) (fits : start + width.bytes ≤ buf.length) :
    write e width buf start (read e width buf start) = buf := by
  have restored := e.encode_decode (Bytes.window buf start width.bytes)
  rw [Bytes.length_window fits] at restored
  rw [write, read, restored, Bytes.overwrite_window fits]

theorem read_write_of_apart (e e' : Endian) (fits : start + width.bytes ≤ buf.length)
    (apart : (span start width).Apart (span start' width')) :
    read e' width' (write e width buf start n) start' = read e' width' buf start' := by
  have length := e.length_encode width.bytes n
  rw [read, write, Bytes.window_overwrite_of_apart (by omega) (by rwa [length]), read]

theorem write_comm (e e' : Endian) (fits : start + width.bytes ≤ buf.length)
    (fits' : start' + width'.bytes ≤ buf.length)
    (apart : (span start width).Apart (span start' width')) :
    write e' width' (write e width buf start n) start' m =
      write e width (write e' width' buf start' m) start n := by
  have length := e.length_encode width.bytes n
  have length' := e'.length_encode width'.bytes m
  exact Bytes.overwrite_comm (by omega) (by omega) (by rwa [length, length'])

theorem read_little (width : Width) (buf : Bytes) (start : Nat) :
    read .little width buf start =
      Nat.ofDigits 256 ((Bytes.window buf start width.bytes).map UInt8.toNat) := by
  rw [read, Endian.decode_little, Bytes.ofLittleEndian_eq_ofDigits]

/-- Wherever a word fits, aligned or not, it is written into its own window alone. It is read back
from there, in the other byte order with its bytes reversed, and a word that is read and written
again leaves the buffer as it was. In the little byte order the first byte is the lowest one. Words
in windows apart are written in any order, and neither is read differently for the other one. -/
theorem write_confined (e : Endian) (fits : start + width.bytes ≤ buf.length)
    (small : n < 256 ^ width.bytes) :
    (write e width buf start n).length = buf.length ∧
    (∀ p, p ∉ span start width → (write e width buf start n)[p]? = buf[p]?) ∧
    read e width (write e width buf start n) start = n ∧
    read e.other width (write e width buf start n) start = Bytes.swapped width.bytes n ∧
    write e width buf start (read e width buf start) = buf ∧
    read .little width buf start =
      Nat.ofDigits 256 ((Bytes.window buf start width.bytes).map UInt8.toNat) ∧
    ∀ e' width' start' m, start' + width'.bytes ≤ buf.length →
      (span start width).Apart (span start' width') →
      write e' width' (write e width buf start n) start' m =
        write e width (write e' width' buf start' m) start n ∧
      read e' width' (write e width buf start n) start' = read e' width' buf start' ∧
      read e width (write e' width' buf start' m) start = read e width buf start := by
  refine ⟨length_write e fits, fun p => getElem?_write e fits, ?_, ?_, write_read e fits,
    read_little width buf start, ?_⟩
  · rw [read_write e e fits, e.decode_encode, Nat.mod_eq_of_lt small]
  · rw [read_write e e.other fits, e.decode_other_encode]
  · intro e' width' start' m fits' apart
    exact ⟨write_comm e e' fits fits' apart, read_write_of_apart e e' fits apart,
      read_write_of_apart e' e fits' (Std.Symm.symm _ _ apart)⟩

/-- Eight bytes at an odd position, and two bytes right behind them. -/
theorem write_confined_unaligned :
    let buf : Bytes := List.replicate 12 0xAA
    let buf' := write .big .eight buf 1 0x0123456789ABCDEF
    1 + Width.eight.bytes ≤ buf.length ∧ 0x0123456789ABCDEF < 256 ^ Width.eight.bytes ∧
      9 + Width.two.bytes ≤ buf.length ∧ (span 1 .eight).Apart (span 9 .two) ∧
      buf' = [0xAA, 0x01, 0x23, 0x45, 0x67, 0x89, 0xAB, 0xCD, 0xEF, 0xAA, 0xAA, 0xAA] ∧
      read .big .eight buf' 1 = 0x0123456789ABCDEF ∧
      read .little .eight buf' 1 = 0xEFCDAB8967452301 ∧
      read .little .two buf' 9 = 0xAAAA ∧
      write .little .two buf' 9 0xBEEF =
        write .big .eight (write .little .two buf 9 0xBEEF) 1 0x0123456789ABCDEF := by
  intro buf buf'
  have fits : 1 + Width.eight.bytes ≤ buf.length := by decide
  have fits' : 9 + Width.two.bytes ≤ buf.length := by decide
  have small : 0x0123456789ABCDEF < 256 ^ Width.eight.bytes := by decide
  have apart : (span 1 .eight).Apart (span 9 .two) := fun p first second =>
    absurd first.2 (Nat.not_lt.mpr second.1)
  obtain ⟨-, -, back, reversed, -, -, others⟩ := write_confined .big fits small
  obtain ⟨commute, kept, -⟩ := others .little .two 9 0xBEEF fits' apart
  exact ⟨fits, small, fits', apart, by decide, back, reversed.trans (by decide),
    kept.trans (by decide), commute⟩

end Word

end WireRecords
