import WireRecords.Decimal

/-!
# General numeric text

The text of a number with six significant digits, rounded exactly and a tie to the even digit.
Trailing zeros are dropped. Exponents from -4 to 5 are written positionally, all others in
scientific form with an exponent of at least two digits.
-/

namespace WireRecords.Decimal

def significantDigits : Nat := 6

def rounded (num den : Nat) : Decimal :=
  let e := exponent10 num den - (significantDigits : Int) + 1
  let (n, d) := Binary64.scale 10 num den e
  ⟨Binary64.roundDiv n d, e⟩

def exponentText (e : Int) : List Char :=
  let ds := Nat.toDigits 10 e.natAbs
  (if e < 0 then '-' else '+') :: (if ds.length < 2 then '0' :: ds else ds)

def mantissaText : List Char → List Char
  | [] => []
  | [d] => [d]
  | d :: ds => d :: '.' :: ds

def positionalText (d : Decimal) : List Char :=
  let ds := d.digitChars
  if d.point ≤ 0 then '0' :: '.' :: (List.replicate (-d.point).toNat '0' ++ ds)
  else if 0 ≤ d.exponent then ds ++ List.replicate d.exponent.toNat '0'
  else ds.take d.point.toNat ++ '.' :: ds.drop d.point.toNat

/-- A numeral without trailing zeros, in general form. -/
def generalText (d : Decimal) : List Char :=
  let e := d.point - 1
  if e < -4 ∨ (significantDigits : Int) ≤ e then mantissaText d.digitChars ++ 'e' :: exponentText e
  else positionalText d

def general (x : Binary64) : String :=
  let signed (negative : Bool) (cs : List Char) :=
    String.ofList (if negative then '-' :: cs else cs)
  match x.parts with
  | .nan negative => signed negative ['n', 'a', 'n']
  | .infinite negative => signed negative ['i', 'n', 'f']
  | .finite negative 0 _ => signed negative ['0']
  | .finite negative m e =>
    let (num, den) := quotient m e
    signed negative (generalText (rounded num den).normalize)

end WireRecords.Decimal
