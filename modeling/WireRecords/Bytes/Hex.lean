import WireRecords.Bytes

/-!
# Hexadecimal text

A byte is written as two lower-case digits. The reader takes digits of either case and skips
separators wherever they stand, even between the two digits of a byte.
-/

namespace WireRecords.Hex

def digit (n : Nat) : Char :=
  if n < 10 then Char.ofNat ('0'.toNat + n) else Char.ofNat ('a'.toNat + (n - 10))

def digitValue? (c : Char) : Option Nat :=
  if '0' ≤ c ∧ c ≤ '9' then some (c.toNat - '0'.toNat)
  else if 'a' ≤ c ∧ c ≤ 'f' then some (c.toNat - 'a'.toNat + 10)
  else if 'A' ≤ c ∧ c ≤ 'F' then some (c.toNat - 'A'.toNat + 10)
  else none

def pair (b : UInt8) : List Char :=
  [digit (b.toNat / 16), digit (b.toNat % 16)]

def digits (bs : Bytes) : List Char :=
  bs.flatMap pair

/-- The bytes of a list of digits, two digits each; nothing for a character that is no digit or for
an odd number of digits. -/
def ofDigits? : List Char → Option Bytes
  | [] => some []
  | [_] => none
  | hi :: lo :: rest => do
    let h ← digitValue? hi
    let l ← digitValue? lo
    let bs ← ofDigits? rest
    pure (UInt8.ofNat (16 * h + l) :: bs)

def isSeparator (c : Char) : Bool :=
  c = ' ' || c = ':' || c = '\t' || c = '\n'

def parse (text : String) : Option Bytes :=
  ofDigits? (text.toList.filter fun c => !isSeparator c)

def render (bs : Bytes) : String :=
  " ".intercalate (bs.map fun b => String.ofList (pair b))

end WireRecords.Hex
