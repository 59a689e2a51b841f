import WireRecords.Decimal.General
import WireRecords.Decimal.Shortest
import WireRecords.Json

/-!
# JSON text

A value is written compactly or with every element on a line of its own. Control characters in
strings are escaped, so a compact text is a single line.
-/

namespace WireRecords.Json

/-- How a character stands inside a string: quotes, backslashes and control characters are escaped,
all others stand as they are. -/
def escapeChar (c : Char) : List Char :=
  if c = '"' then ['\\', '"']
  else if c = '\\' then ['\\', '\\']
  else if c = '\x08' then ['\\', 'b']
  else if c = '\x0c' then ['\\', 'f']
  else if c = '\n' then ['\\', 'n']
  else if c = '\r' then ['\\', 'r']
  else if c = '\t' then ['\\', 't']
  else if c.toNat < 0x20 then
    ['\\', 'u', '0', '0', Nat.digitChar (c.toNat / 16), Nat.digitChar (c.toNat % 16)]
  else [c]

def stringText (s : String) : List Char :=
  '"' :: (s.toList.flatMap escapeChar ++ ['"'])

def natText (n : Nat) : List Char := Nat.toDigits 10 n

def intText (n : Int) : List Char :=
  if n < 0 then '-' :: natText n.natAbs else natText n.natAbs

/-- Numbers with up to 15 digits before the point or three zeros after it are written positionally,
with a fraction even if it is zero; all others in scientific form. -/
def decimalText (d : Decimal) : List Char :=
  if 0 < d.point ∧ d.point ≤ 15 ∧ 0 ≤ d.exponent then d.positionalText ++ ['.', '0']
  else if -4 < d.point ∧ d.point ≤ 15 then d.positionalText
  else Decimal.mantissaText d.digitChars ++ 'e' :: Decimal.exponentText (d.point - 1)

def floatText (x : Binary64) : List Char :=
  let digits : List Char := match Decimal.shortest? x with
    | none => ['n', 'u', 'l', 'l']
    | some ⟨0, _⟩ => ['0', '.', '0']
    | some d => decimalText d
  if x.isNegative ∧ x.isFinite then '-' :: digits else digits

abbrev Style := Option Nat

def gap (style : Style) (depth : Nat) : List Char :=
  match style with
  | none => []
  | some n => '\n' :: List.replicate (n * depth) ' '

def colon (style : Style) : List Char :=
  match style with
  | none => [':']
  | some _ => [':', ' ']

mutual

def render (style : Style) (depth : Nat) : Json → List Char
  | null => ['n', 'u', 'l', 'l']
  | bool true => ['t', 'r', 'u', 'e']
  | bool false => ['f', 'a', 'l', 's', 'e']
  | unsigned n => natText n.toNat
  | signed n => intText n.toInt
  | float x => floatText x
  | string s => stringText s
  | array [] => ['[', ']']
  | array (x :: xs) =>
    '[' :: (gap style (depth + 1) ++ render style (depth + 1) x ++ renderItems style depth xs)
  | object [] => ['{', '}']
  | object ((k, v) :: ms) =>
    '{' :: (gap style (depth + 1) ++ stringText k ++ colon style ++ render style (depth + 1) v ++
      renderMembers style depth ms)

def renderItems (style : Style) (depth : Nat) : List Json → List Char
  | [] => gap style depth ++ [']']
  | x :: xs =>
    ',' :: (gap style (depth + 1) ++ render style (depth + 1) x ++ renderItems style depth xs)

def renderMembers (style : Style) (depth : Nat) : List (String × Json) → List Char
  | [] => gap style depth ++ ['}']
  | (k, v) :: ms =>
    ',' :: (gap style (depth + 1) ++ stringText k ++ colon style ++ render style (depth + 1) v ++
      renderMembers style depth ms)

end

def compact (j : Json) : String := String.ofList (render none 0 j)

def pretty (indent : Nat) (j : Json) : String := String.ofList (render (some indent) 0 j)

end WireRecords.Json
