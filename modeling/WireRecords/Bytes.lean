/-!
# Byte strings

Buffers are plain lists of bytes. `overwrite` replaces a window of a buffer in place and `window`
reads one back; `patch` may also go beyond the buffer's end. A natural number is written into a
window of a given width by shifting each byte down from its place, and read back by shifting each
byte up again; the byte order says which place is whose.
-/

namespace WireRecords

abbrev Bytes := List UInt8

inductive Endian where
  | big
  | little
  deriving DecidableEq, Repr

namespace Bytes

def window (buf : Bytes) (start len : Nat) : Bytes :=
  (buf.drop start).take len

/-- Puts `bs` over the bytes that start at position `start` and keeps all others. -/
def overwrite (buf : Bytes) (start : Nat) (bs : Bytes) : Bytes :=
  buf.take start ++ bs ++ buf.drop (start + bs.length)

/-- Puts `bs` over the bytes from position `start` on and lengthens the buffer where it is too
short; a gap before `start` is filled with zeros. Putting nothing changes nothing. -/
def patch (buf : Bytes) (start : Nat) (bs : Bytes) : Bytes :=
  if bs = [] then buf
  else overwrite (buf ++ List.replicate (start - buf.length) 0) start bs

@[simp] theorem length_overwrite {buf bs : Bytes} {start : Nat}
    (h : start + bs.length ≤ buf.length) : (overwrite buf start bs).length = buf.length := by
  simp only [overwrite, List.length_append, List.length_take, List.length_drop]
  omega

@[simp] theorem patch_length (buf bs : Bytes) : patch buf buf.length bs = buf ++ bs := by
  by_cases h : bs = [] <;> simp [patch, overwrite, h]

theorem overwrite_append {buf : Bytes} {start : Nat} (h : start ≤ buf.length) (as bs : Bytes) :
    overwrite (overwrite buf start as) (start + as.length) bs = overwrite buf start (as ++ bs) := by
  have head : (buf.take start ++ as).length = start + as.length := by
    simp only [List.length_append, List.length_take]
    omega
  simp only [overwrite, ← head]
  rw [List.take_left, List.drop_append, List.drop_eq_nil_of_le (by omega)]
  simp [List.drop_drop, List.length_append, head, Nat.add_assoc]

theorem patch_append (buf : Bytes) (start : Nat) (as bs : Bytes) :
    patch (patch buf start as) (start + as.length) bs = patch buf start (as ++ bs) := by
  by_cases ha : as = []
  · simp [patch, ha]
  · by_cases hb : bs = []
    · simp [patch, hb]
    · have full : start ≤ (buf ++ List.replicate (start - buf.length) 0).length := by
        simp only [List.length_append, List.length_replicate]
        omega
      simp only [patch, ha, hb, if_false, List.append_eq_nil_iff, false_and]
      generalize buf ++ List.replicate (start - buf.length) 0 = filled at full ⊢
      have long : start + as.length - (overwrite filled start as).length = 0 := by
        simp only [overwrite, List.length_append, List.length_take, List.length_drop]
        omega
      rw [long, List.replicate_zero, List.append_nil, overwrite_append full]

end Bytes

namespace Endian

def place : Endian → Nat → Nat → Nat
  | .big, width, i => 8 * (width - 1 - i)
  | .little, _, i => 8 * i

/-- The bytes of a number: each is shifted down from its place, and what lies above it is masked
out. -/
def encode (e : Endian) (width n : Nat) : Bytes :=
  (List.range width).map fun i => UInt8.ofNat ((n >>> e.place width i) &&& 0xFF)

def overlay (e : Endian) (bs : Bytes) : Nat :=
  (bs.mapIdx fun i b => b.toNat <<< e.place bs.length i).foldl (· ||| ·) 0

def decode (e : Endian) (bs : Bytes) : Nat := e.overlay bs

@[simp] theorem length_encode (e : Endian) (width n : Nat) : (e.encode width n).length = width := by
  simp [encode]

end Endian

end WireRecords
