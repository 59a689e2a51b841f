/-!
# Binary64 numbers

A double-precision number is its 64-bit pattern. The pattern splits into a sign, a natural
mantissa and a power of two, and `magnitude` goes the other way: the pattern nearest to a quotient
of natural numbers, a tie going to the even mantissa.
-/

namespace WireRecords

structure Binary64 where
  bits : UInt64
  deriving DecidableEq, Repr

namespace Binary64

/-- What a bit pattern stands for: `finite negative m e` is `m * 2 ^ e` with its sign. -/
inductive Parts where
  | nan (negative : Bool)
  | infinite (negative : Bool)
  | finite (negative : Bool) (mantissa : Nat) (exponent : Int)
  deriving DecidableEq, Repr

def magnitudeBits (x : Binary64) : Nat := x.bits.toNat % (1 <<< 63)

def isNegative (x : Binary64) : Bool := 1 <<< 63 ≤ x.bits.toNat

def infinityBits : Nat := 2047 <<< 52

def parts (x : Binary64) : Parts :=
  let fraction : Nat := x.magnitudeBits % (1 <<< 52)
  let exponent : Nat := x.magnitudeBits >>> 52
  if exponent = 2047 then
    if fraction = 0 then .infinite x.isNegative else .nan x.isNegative
  else if exponent = 0 then .finite x.isNegative fraction (-1074)
  else .finite x.isNegative (1 <<< 52 + fraction) ((exponent : Int) - 1075)

def isFinite (x : Binary64) : Bool := x.magnitudeBits < infinityBits

def isNaN (x : Binary64) : Bool := infinityBits < x.magnitudeBits

def ofMagnitude (negative : Bool) (magnitude : Nat) : Binary64 :=
  ⟨UInt64.ofNat ((if negative then 1 <<< 63 else 0) + magnitude)⟩

def infinity (negative : Bool) : Binary64 := ofMagnitude negative infinityBits

def nan : Binary64 := ofMagnitude false (infinityBits + 1 <<< 51)

def roundDiv (num den : Nat) : Nat :=
  let q := num / den
  let r := num % den
  if 2 * r < den then q else if den < 2 * r then q + 1 else q + q % 2

def scale (base num den : Nat) (exponent : Int) : Nat × Nat :=
  if 0 ≤ exponent then (num, den * base.pow exponent.toNat)
  else (num * base.pow (-exponent).toNat, den)

def lastPlace (num den : Nat) : Int :=
  let low : Int := (num.log2 : Int) - (den.log2 : Int) - 53
  let (n, d) := scale 2 num den low
  max (-1074) (if 1 <<< 53 ≤ n / d then low + 1 else low)

/-- The magnitude pattern nearest to `num / den`. Consecutive patterns stand for consecutive
numbers, so a mantissa that rounds up to the next power of two carries into the exponent. -/
def magnitude (num den : Nat) : Nat :=
  if num = 0 then 0 else
    let e := lastPlace num den
    let (n, d) := scale 2 num den e
    min infinityBits ((e + 1074).toNat <<< 52 + roundDiv n d)

/-- The number nearest to `digits * 10 ^ exponent`. Beyond 310 digits before the point lies
infinity, and 330 zeros after it leave zero. -/
def ofDecimal (negative : Bool) (digits : Nat) (exponent : Int) : Binary64 :=
  let length : Int := (Nat.toDigits 10 digits).length
  if digits = 0 then ofMagnitude negative 0
  else if 310 < length + exponent then infinity negative
  else if length + exponent < -330 then ofMagnitude negative 0
  else
    let (n, d) := scale 10 digits 1 (-exponent)
    ofMagnitude negative (magnitude n d)

def ofBinary (negative : Bool) (mantissa : Nat) (exponent : Int) : Binary64 :=
  if mantissa = 0 then ofMagnitude negative 0
  else if 1100 < (mantissa.log2 : Int) + exponent then infinity negative
  else if (mantissa.log2 : Int) + exponent < -1200 then ofMagnitude negative 0
  else
    let (n, d) := scale 2 mantissa 1 (-exponent)
    ofMagnitude negative (magnitude n d)

def ofInt (n : Int) : Binary64 :=
  ofMagnitude (n < 0) (magnitude n.natAbs 1)

def truncate? (x : Binary64) : Option Int :=
  match x.parts with
  | .finite negative m e =>
    let n : Nat := if 0 ≤ e then m <<< e.toNat else m >>> (-e).toNat
    some (if negative then -(n : Int) else n)
  | _ => none

end Binary64

end WireRecords
