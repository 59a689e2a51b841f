import WireRecords.Binary64

/-!
# Decimal numerals of exact quotients

A positive quotient lies between two neighbours on every decimal grid. `exponent10` gives the
position of its first digit, `onGrid` its lower neighbour, and `Decimal` is a digit string with the
power of ten of its last digit.
-/

namespace WireRecords

/-- The number `digits * 10 ^ exponent`. -/
structure Decimal where
  digits : Nat
  exponent : Int
  deriving DecidableEq, Repr

namespace Decimal

def digitChars (d : Decimal) : List Char := Nat.toDigits 10 d.digits

def point (d : Decimal) : Int := (d.digitChars.length : Int) + d.exponent

def stripZeros : Nat → Nat → Int → Decimal
  | 0, n, e => ⟨n, e⟩
  | fuel + 1, n, e => if n ≠ 0 ∧ n % 10 = 0 then stripZeros fuel (n / 10) (e + 1) else ⟨n, e⟩

def normalize (d : Decimal) : Decimal :=
  stripZeros d.digitChars.length d.digits d.exponent

/-- The binary64 number nearest to a numeral with a sign. Trailing zeros are dropped first. -/
def nearest (negative : Bool) (d : Decimal) : Binary64 :=
  Binary64.ofDecimal negative d.normalize.digits d.normalize.exponent

def digitCount (n : Nat) : Nat := (Nat.toDigits 10 n).length

def exponent10 (num den : Nat) : Int :=
  let e : Int := (digitCount num : Int) - digitCount den
  let (n, d) := Binary64.scale 10 num den e
  if d ≤ n then e else e - 1

/-- The largest multiple of `10 ^ exponent` that is not above `num / den`, as a count of grid steps,
and whether the next multiple is nearer. A tie goes to the even count. -/
def onGrid (num den : Nat) (exponent : Int) : Nat × Bool :=
  let (n, d) := Binary64.scale 10 num den exponent
  (n / d, n / d < Binary64.roundDiv n d)

def quotient (m : Nat) (e : Int) : Nat × Nat := Binary64.scale 2 m 1 (-e)

end Decimal

end WireRecords
