import WireRecords.Bytes

/-!
# Primitives

The fixed-width values that a record field can hold: integers and characters of one, two, four or
eight bytes, truth values, raw bytes and enumerations over an integer type. A value of a primitive
is an integer inside the primitive's range (`Scalar`), and it travels as the unsigned bit pattern of
the primitive's width. Only truth values lose information on the way in: every non-zero byte reads
as true.
-/

namespace WireRecords

inductive Width where
  | one
  | two
  | four
  | eight
  deriving DecidableEq, Repr

namespace Width

def bytes : Width → Nat
  | one => 1
  | two => 2
  | four => 4
  | eight => 8

def bits (w : Width) : Nat := 8 * w.bytes

def patterns (w : Width) : Nat := 1 <<< w.bits

theorem bytes_pos (w : Width) : 0 < w.bytes := by cases w <;> decide

end Width

/-- Integer and character types. Plain and wide characters are signed; the Unicode code units are
not. -/
inductive IntKind where
  | unsigned (width : Width)
  | signed (width : Width)
  | char
  | char8
  | char16
  | char32
  | wideChar
  deriving DecidableEq, Repr

namespace IntKind

def width : IntKind → Width
  | unsigned w => w
  | signed w => w
  | char => .one
  | char8 => .one
  | char16 => .two
  | char32 => .four
  | wideChar => .four

def isSigned : IntKind → Bool
  | unsigned _ => false
  | signed _ => true
  | char => true
  | char8 => false
  | char16 => false
  | char32 => false
  | wideChar => true

def isCharacter : IntKind → Bool
  | unsigned _ => false
  | signed _ => false
  | _ => true

def patterns (k : IntKind) : Nat := k.width.patterns

def half (k : IntKind) : Nat := k.patterns / 2

def least (k : IntKind) : Int :=
  if k.isSigned then -(k.half : Int) else 0

def greatest (k : IntKind) : Int :=
  if k.isSigned then (k.half : Int) - 1 else (k.patterns : Int) - 1

def valueOfBits (k : IntKind) (bits : Nat) : Int :=
  let n := bits % k.patterns
  if k.isSigned ∧ k.patterns ≤ 2 * n then (n : Int) - k.patterns else n

theorem half_pos (k : IntKind) : 0 < k.half := by
  change 0 < k.width.patterns / 2
  cases k.width <;> decide

theorem patterns_eq (k : IntKind) : k.patterns = 2 * k.half := by
  change k.width.patterns = 2 * (k.width.patterns / 2)
  cases k.width <;> decide

theorem least_le_zero (k : IntKind) : k.least ≤ 0 := by
  rw [least]
  split <;> omega

theorem zero_le_greatest (k : IntKind) : 0 ≤ k.greatest := by
  have := k.half_pos
  have := k.patterns_eq
  rw [greatest]
  split <;> omega

theorem valueOfBits_mem (k : IntKind) (bits : Nat) :
    k.least ≤ k.valueOfBits bits ∧ k.valueOfBits bits ≤ k.greatest := by
  have hh := k.half_pos
  have hp := k.patterns_eq
  have small : bits % k.patterns < k.patterns := Nat.mod_lt bits (by omega)
  simp only [valueOfBits, least, greatest]
  cases k.isSigned <;>
    simp only [Bool.false_eq_true, if_true, if_false, true_and, false_and]
  · omega
  · split <;> omega

end IntKind

/-- Enumerations are told apart by their name, not by their underlying type. -/
inductive Primitive where
  | integer (kind : IntKind)
  | boolean
  | byte
  | enumeration (name : String) (base : IntKind)
  deriving DecidableEq, Repr

namespace Primitive

def width : Primitive → Width
  | integer k => k.width
  | boolean => .one
  | byte => .one
  | enumeration _ k => k.width

def byteLen (p : Primitive) : Nat := p.width.bytes

def isSigned : Primitive → Bool
  | integer k => k.isSigned
  | boolean => false
  | byte => false
  | enumeration _ k => k.isSigned

def least : Primitive → Int
  | integer k => k.least
  | boolean => 0
  | byte => 0
  | enumeration _ k => k.least

def greatest : Primitive → Int
  | integer k => k.greatest
  | boolean => 1
  | byte => 255
  | enumeration _ k => k.greatest

def patterns (p : Primitive) : Nat := p.width.patterns

/-- The integer that a bit pattern stands for. Every non-zero byte is the truth value 1. -/
def valueOfBits : Primitive → Nat → Int
  | integer k, bits => k.valueOfBits bits
  | boolean, bits => if bits % 256 = 0 then 0 else 1
  | byte, bits => ((bits % 256 : Nat) : Int)
  | enumeration _ k, bits => k.valueOfBits bits

theorem byteLen_of_width {p : Primitive} (h : p.width = .one) : p.byteLen = 1 := by
  rw [byteLen, h]
  rfl

theorem least_le_zero : (p : Primitive) → p.least ≤ 0
  | integer k => k.least_le_zero
  | boolean => Int.le_refl 0
  | byte => Int.le_refl 0
  | enumeration _ k => k.least_le_zero

theorem zero_le_greatest : (p : Primitive) → 0 ≤ p.greatest
  | integer k => k.zero_le_greatest
  | boolean => by decide
  | byte => by decide
  | enumeration _ k => k.zero_le_greatest

theorem valueOfBits_mem : (p : Primitive) → (bits : Nat) →
    p.least ≤ p.valueOfBits bits ∧ p.valueOfBits bits ≤ p.greatest
  | integer k, bits => k.valueOfBits_mem bits
  | boolean, bits => by
    simp only [valueOfBits, least, greatest]
    split <;> omega
  | byte, bits => by
    simp only [valueOfBits, least, greatest]
    omega
  | enumeration _ k, bits => k.valueOfBits_mem bits

end Primitive

namespace Primitive

abbrev u8 : Primitive := integer (.unsigned .one)
abbrev i8 : Primitive := integer (.signed .one)
abbrev u16 : Primitive := integer (.unsigned .two)
abbrev i16 : Primitive := integer (.signed .two)
abbrev u32 : Primitive := integer (.unsigned .four)
abbrev i32 : Primitive := integer (.signed .four)
abbrev u64 : Primitive := integer (.unsigned .eight)
abbrev i64 : Primitive := integer (.signed .eight)

end Primitive

@[ext] structure Scalar (p : Primitive) where
  val : Int
  least_le : p.least ≤ val
  le_greatest : val ≤ p.greatest
  deriving DecidableEq, Repr

namespace Scalar

def ofInt? (p : Primitive) (n : Int) : Option (Scalar p) :=
  if h : p.least ≤ n ∧ n ≤ p.greatest then some ⟨n, h.1, h.2⟩ else none

def zero (p : Primitive) : Scalar p := ⟨0, p.least_le_zero, p.zero_le_greatest⟩

instance (p : Primitive) : Inhabited (Scalar p) := ⟨zero p⟩

/-- The unsigned bit pattern of equal width: a negative value travels as its two's complement. -/
def toBits {p : Primitive} (v : Scalar p) : Nat :=
  (v.val % (p.patterns : Int)).toNat

def ofBits (p : Primitive) (bits : Nat) : Scalar p :=
  ⟨p.valueOfBits bits, (p.valueOfBits_mem bits).1, (p.valueOfBits_mem bits).2⟩

def encode {p : Primitive} (e : Endian) (v : Scalar p) : Bytes :=
  e.encode p.byteLen v.toBits

def decode (p : Primitive) (e : Endian) (bs : Bytes) : Scalar p :=
  ofBits p (e.decode bs)

def encodeByte {p : Primitive} (v : Scalar p) : Bytes :=
  [UInt8.ofNat v.toBits]

def decodeByte (p : Primitive) (bs : Bytes) : Scalar p :=
  ofBits p (bs.headD 0).toNat

end Scalar

/-- The byte order of a declared field. Single bytes and nested records have none. -/
inductive ByteOrder where
  | unspecified
  | big
  | little
  | unknown (code : Nat)
  deriving DecidableEq, Repr

namespace ByteOrder

def label : ByteOrder → String
  | big => "be"
  | little => "le"
  | _ => "-"

def ofEndian : Endian → ByteOrder
  | .big => big
  | .little => little

end ByteOrder

namespace Scalar

def encodeOrdered {p : Primitive} (order : ByteOrder) (v : Scalar p) : Bytes :=
  match order with
  | .big => v.encode .big
  | .little => v.encode .little
  | _ => v.encodeByte

def decodeOrdered (p : Primitive) (order : ByteOrder) (bs : Bytes) : Scalar p :=
  match order with
  | .big => decode p .big bs
  | .little => decode p .little bs
  | _ => decodeByte p bs

end Scalar

end WireRecords
