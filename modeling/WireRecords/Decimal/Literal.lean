import WireRecords.Binary64

/-!
# Numeric literals

Reading numbers from text: the parts of a literal (digits, fraction, exponent), whole texts as
binary64 numbers and whole texts as 64-bit integers.
-/

namespace WireRecords.Literal

def isDigit (c : Char) : Bool := '0' ≤ c && c ≤ '9'

def digitValue (c : Char) : Nat :=
  if isDigit c then c.toNat - '0'.toNat
  else if 'a' ≤ c ∧ c ≤ 'z' then c.toNat - 'a'.toNat + 10
  else c.toNat - 'A'.toNat + 10

def isHexDigit (c : Char) : Bool :=
  isDigit c || ('a' ≤ c && c ≤ 'f') || ('A' ≤ c && c ≤ 'F')

def value (base : Nat) (ds : List Char) : Nat :=
  ds.foldl (fun n c => base * n + digitValue c) 0

def scanSign : List Char → Bool × List Char
  | '-' :: cs => (true, cs)
  | '+' :: cs => (false, cs)
  | cs => (false, cs)

def scanFraction (digit : Char → Bool) : List Char → List Char × List Char
  | '.' :: cs => cs.span digit
  | cs => ([], cs)

/-- A signed decimal exponent behind the letter `mark` (of either case); zero when the text ends
instead. Nothing may follow. -/
def exponent? (mark : Char) : List Char → Option Int
  | [] => some 0
  | c :: cs =>
    if c.toLower = mark then
      let (negative, ds) := scanSign cs
      if ds ≠ [] ∧ ds.all isDigit then
        some (if negative then -(value 10 ds : Int) else value 10 ds)
      else none
    else none

def decimal? (negative : Bool) (cs : List Char) : Option Binary64 := do
  let (whole, cs) := cs.span isDigit
  let (fraction, cs) := scanFraction isDigit cs
  if whole = [] ∧ fraction = [] then none
  let e ← exponent? 'e' cs
  pure (Binary64.ofDecimal negative (value 10 (whole ++ fraction)) (e - fraction.length))

def hexadecimal? (negative : Bool) (cs : List Char) : Option Binary64 := do
  let (whole, cs) := cs.span isHexDigit
  let (fraction, cs) := scanFraction isHexDigit cs
  if whole = [] ∧ fraction = [] then none
  let e ← exponent? 'p' cs
  pure (Binary64.ofBinary negative (value 16 (whole ++ fraction)) (e - 4 * fraction.length))

/-- The name of NaN, perhaps with letters, digits and underscores in parentheses. -/
def isNaNName (cs : List Char) : Bool :=
  match cs.map Char.toLower with
  | ['n', 'a', 'n'] => true
  | 'n' :: 'a' :: 'n' :: '(' :: tail =>
    (tail.dropWhile fun c => c.isAlphanum || c = '_') = [')']
  | _ => false

def isInfinityName (cs : List Char) : Bool :=
  let lower := cs.map Char.toLower
  lower = ['i', 'n', 'f'] || lower = ['i', 'n', 'f', 'i', 'n', 'i', 't', 'y']

def magnitude? (negative : Bool) (cs : List Char) : Option Binary64 :=
  if isInfinityName cs then some (Binary64.infinity negative)
  else if isNaNName cs then some Binary64.nan
  else match cs with
    | '0' :: x :: rest =>
      if x.toLower = 'x' then hexadecimal? negative rest else decimal? negative cs
    | _ => decimal? negative cs

def isBlank (c : Char) : Bool :=
  c = ' ' || ('\t' ≤ c && c ≤ '\r')

/-- The number that a whole text denotes: blanks, a sign, and a decimal or hexadecimal literal or
one of the names of infinity and NaN. -/
def float? (text : String) : Option Binary64 :=
  let (negative, cs) := scanSign (text.toList.dropWhile isBlank)
  magnitude? negative cs

def int64? (text : String) : Option Int64 :=
  let (negative, ds) : Bool × List Char := match text.toList with
    | '-' :: ds => (true, ds)
    | ds => (false, ds)
  if ds ≠ [] ∧ ds.all isDigit then
    let n : Int := if negative then -(value 10 ds : Int) else value 10 ds
    if Int64.minValue.toInt ≤ n ∧ n ≤ Int64.maxValue.toInt then some (Int64.ofInt n) else none
  else none

end WireRecords.Literal
