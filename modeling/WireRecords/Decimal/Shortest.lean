import WireRecords.Decimal

/-!
# Shortest decimal numerals

`shortest?` finds the fewest digits that read back as the same binary64 number, and of those the
nearest ones. The search tries the two neighbours of the number on the grids of 1, 2, ... 17 digits,
the nearer neighbour first; the exact expansion stands last, so what is found always reads back.
-/

namespace WireRecords.Decimal

def readsBack (magnitude : Nat) (d : Decimal) : Bool :=
  nearest false d == Binary64.ofMagnitude false magnitude

/-- The neighbours of `num / den` among the numerals of `count` digits, the nearer one first. -/
def candidates (num den count : Nat) : List Decimal :=
  let e := exponent10 num den - (count : Int) + 1
  let (low, upward) := onGrid num den e
  if upward then [⟨low + 1, e⟩, ⟨low, e⟩] else [⟨low, e⟩, ⟨low + 1, e⟩]

def expansion (m : Nat) (e : Int) : Decimal :=
  if 0 ≤ e then ⟨m <<< e.toNat, 0⟩ else ⟨m * Nat.pow 5 (-e).toNat, e⟩

/-- The numeral of a positive number `m * 2 ^ e` with the given magnitude pattern. -/
def shortestOf (magnitude m : Nat) (e : Int) : Decimal :=
  let (num, den) := quotient m e
  let tried := (List.range 17).flatMap fun i => candidates num den (i + 1)
  ((tried.find? (readsBack magnitude)).getD (expansion m e)).normalize

def shortest? (x : Binary64) : Option Decimal :=
  match x.parts with
  | .finite _ 0 _ => some ⟨0, 0⟩
  | .finite _ m e => some (shortestOf x.magnitudeBits m e)
  | _ => none

end WireRecords.Decimal
