import WireRecords.Bytes.Hex
import WireRecords.Decimal
import WireRecords.Decimal.Literal
import WireRecords.Json

/-!
# Reading JSON

A strict reader: one value, white space around its tokens, one byte-order mark in front, nothing
behind, where a NUL ends the text. Raw control characters in strings, lone surrogates and numbers
beyond the finite floats are refused. Every reader returns what it read together with the rest of
the text; nesting is bounded by fuel that the length of the text supplies.
-/

namespace WireRecords.Json

def isSpace (c : Char) : Bool := c = ' ' || c = '\t' || c = '\n' || c = '\r'

def skipSpace (cs : List Char) : List Char := cs.dropWhile isSpace

def codeUnit? (a b c d : Char) : Option Nat := do
  let a ← Hex.digitValue? a
  let b ← Hex.digitValue? b
  let c ← Hex.digitValue? c
  let d ← Hex.digitValue? d
  pure (((a * 16 + b) * 16 + c) * 16 + d)

def unescape? (c : Char) : Option Char :=
  if c = '"' then some '"'
  else if c = '\\' then some '\\'
  else if c = '/' then some '/'
  else if c = 'b' then some '\x08'
  else if c = 'f' then some '\x0c'
  else if c = 'n' then some '\n'
  else if c = 'r' then some '\r'
  else if c = 't' then some '\t'
  else none

def scanString : List Char → Option (List Char × List Char)
  | [] => none
  | '"' :: rest => some ([], rest)
  | '\\' :: 'u' :: a :: b :: c :: d :: rest =>
    match codeUnit? a b c d with
    | none => none
    | some high =>
      if 0xD800 ≤ high ∧ high < 0xDC00 then
        match rest with
        | '\\' :: 'u' :: e :: f :: g :: h :: rest =>
          match codeUnit? e f g h with
          | none => none
          | some low =>
            if 0xDC00 ≤ low ∧ low < 0xE000 then
              (scanString rest).map fun (cs, rest) =>
                (Char.ofNat (0x10000 + (high - 0xD800) * 0x400 + (low - 0xDC00)) :: cs, rest)
            else none
        | _ => none
      else if 0xDC00 ≤ high ∧ high < 0xE000 then none
      else (scanString rest).map fun (cs, rest) => (Char.ofNat high :: cs, rest)
  | '\\' :: c :: rest =>
    match unescape? c with
    | none => none
    | some c => (scanString rest).map fun (cs, rest) => (c :: cs, rest)
  | c :: rest =>
    if c.toNat < 0x20 then none
    else (scanString rest).map fun (cs, rest) => (c :: cs, rest)

/-- The digits before the point: a single zero, or digits that start with another one. -/
def scanWhole : List Char → Option (List Char × List Char)
  | '0' :: rest => some (['0'], rest)
  | cs =>
    let (ds, rest) := cs.span Literal.isDigit
    if ds = [] then none else some (ds, rest)

def scanFraction : List Char → Option (Option (List Char) × List Char)
  | '.' :: rest =>
    let (ds, rest) := rest.span Literal.isDigit
    if ds = [] then none else some (some ds, rest)
  | cs => some (none, cs)

def scanExponent : List Char → Option (Option Int × List Char)
  | c :: rest =>
    if c = 'e' ∨ c = 'E' then
      let (negative, rest) := Literal.scanSign rest
      let (ds, rest) := rest.span Literal.isDigit
      if ds = [] then none
      else
        let e : Int := Literal.value 10 ds
        some (some (if negative then -e else e), rest)
    else some (none, c :: rest)
  | [] => some (none, [])

def finite? (x : Binary64) : Option Json := if x.isFinite then some (float x) else none

def number? (negative : Bool) (whole : List Char) (fraction : Option (List Char))
    (exponent : Option Int) : Option Json :=
  let n := Literal.value 10 whole
  match fraction, exponent with
  | none, none =>
    if negative then
      if n ≤ 1 <<< 63 then some (signed (Int64.ofInt (-(n : Int))))
      else finite? (Decimal.nearest true ⟨n, 0⟩)
    else if n < 1 <<< 64 then some (unsigned (UInt64.ofNat n))
    else finite? (Decimal.nearest false ⟨n, 0⟩)
  | fraction, exponent =>
    let ds := fraction.getD []
    finite? (Decimal.nearest negative
      ⟨Literal.value 10 (whole ++ ds), exponent.getD 0 - ds.length⟩)

def scanNumber (cs : List Char) : Option (Json × List Char) := do
  let (negative, cs) : Bool × List Char := match cs with
    | '-' :: cs => (true, cs)
    | cs => (false, cs)
  let (whole, cs) ← scanWhole cs
  let (fraction, cs) ← scanFraction cs
  let (exponent, cs) ← scanExponent cs
  let j ← number? negative whole fraction exponent
  pure (j, cs)

mutual

def scanValue : Nat → List Char → Option (Json × List Char)
  | 0, _ => none
  | fuel + 1, cs =>
    match skipSpace cs with
    | 'n' :: 'u' :: 'l' :: 'l' :: rest => some (null, rest)
    | 't' :: 'r' :: 'u' :: 'e' :: rest => some (bool true, rest)
    | 'f' :: 'a' :: 'l' :: 's' :: 'e' :: rest => some (bool false, rest)
    | '"' :: rest => (scanString rest).map fun (s, rest) => (string (String.ofList s), rest)
    | '[' :: rest =>
      match skipSpace rest with
      | ']' :: rest => some (array [], rest)
      | rest => (scanItems fuel rest).map fun (xs, rest) => (array xs, rest)
    | '{' :: rest =>
      match skipSpace rest with
      | '}' :: rest => some (object [], rest)
      | rest => (scanMembers fuel rest).map fun (ms, rest) => (ofMembers ms, rest)
    | rest => scanNumber rest

def scanItems : Nat → List Char → Option (List Json × List Char)
  | 0, _ => none
  | fuel + 1, cs =>
    match scanValue fuel cs with
    | none => none
    | some (x, rest) =>
      match skipSpace rest with
      | ',' :: rest => (scanItems fuel rest).map fun (xs, rest) => (x :: xs, rest)
      | ']' :: rest => some ([x], rest)
      | _ => none

def scanMembers : Nat → List Char → Option (List (String × Json) × List Char)
  | 0, _ => none
  | fuel + 1, cs =>
    match skipSpace cs with
    | '"' :: rest =>
      match scanString rest with
      | none => none
      | some (key, rest) =>
        match skipSpace rest with
        | ':' :: rest =>
          match scanValue fuel rest with
          | none => none
          | some (v, rest) =>
            match skipSpace rest with
            | ',' :: rest =>
              (scanMembers fuel rest).map fun (ms, rest) => ((String.ofList key, v) :: ms, rest)
            | '}' :: rest => some ([(String.ofList key, v)], rest)
            | _ => none
        | _ => none
    | _ => none

end

def skipMark : List Char → List Char
  | c :: cs => if c.toNat = 0xFEFF then cs else c :: cs
  | [] => []

def isEnd : List Char → Bool
  | [] => true
  | c :: _ => c = '\x00'

def parse? (text : String) : Option Json :=
  let cs := skipMark text.toList
  match scanValue (2 * cs.length + 2) cs with
  | some (j, rest) => if isEnd (skipSpace rest) then some j else none
  | none => none

/-- The text of a document in UTF-8. What stands behind a NUL may be any bytes. -/
def textOf? (bs : List UInt8) : Option String :=
  String.fromUTF8? ⟨bs.toArray⟩ <|> String.fromUTF8? ⟨(bs.takeWhile fun b => b ≠ 0).toArray⟩

def parseBytes? (bs : List UInt8) : Option Json := (textOf? bs).bind parse?

end WireRecords.Json
