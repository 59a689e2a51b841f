import WireRecords.Calendar
import WireRecords.Decimal.Literal
import WireRecords.Text

/-!
# Patterns for moments

A pattern is a text with directives. A directive is a percent sign, flags, a width, a modifier and
a letter: `%Y` is the year, `%_5d` the day of the month behind blanks. A directive that means
nothing stands for itself. The names of days and months are English.
-/

namespace WireRecords.Calendar

inductive Padding where
  | usual
  | blanks
  | zeros
  | none
  deriving DecidableEq, Repr

structure Directive where
  padding : Padding
  upper : Bool
  swap : Bool
  width : Nat
  modifier : Option Char
  letter : Option Char
  written : List Char
  deriving Repr

inductive Part where
  | char (c : Char)
  | directive (d : Directive)
  deriving Repr

def weekdayNames : List String :=
  ["Sunday", "Monday", "Tuesday", "Wednesday", "Thursday", "Friday", "Saturday"]

def monthNames : List String :=
  ["January", "February", "March", "April", "May", "June", "July", "August", "September",
    "October", "November", "December"]

def isFlag (c : Char) : Bool := ['_', '-', '0', '^', '#'].contains c

def paddingOf (flags : List Char) : Padding :=
  flags.foldl (fun p c =>
    if c = '_' then .blanks else if c = '0' then .zeros else if c = '-' then .none else p) .usual

def Directive.scan (cs : List Char) : Directive × List Char :=
  let (flags, afterFlags) := cs.span isFlag
  let (digits, afterWidth) := afterFlags.span Literal.isDigit
  let (modifier, afterModifier) : Option Char × List Char := match afterWidth with
    | 'E' :: rest => (some 'E', rest)
    | 'O' :: rest => (some 'O', rest)
    | rest => (none, rest)
  let rest := afterModifier.drop 1
  ({ padding := paddingOf flags, upper := flags.contains '^', swap := flags.contains '#',
     width := Literal.value 10 digits, modifier, letter := afterModifier.head?,
     written := '%' :: cs.take (cs.length - rest.length) }, rest)

def scanParts : Nat → List Char → List Part
  | 0, _ => []
  | _, [] => []
  | fuel + 1, '%' :: cs =>
    let (d, rest) := Directive.scan cs
    .directive d :: scanParts fuel rest
  | fuel + 1, c :: cs => .char c :: scanParts fuel cs

/-- The parts of a pattern. A pattern ends at a NUL. -/
def partsOf (pattern : String) : List Part :=
  let cs := (Text.beforeNul pattern).toList
  scanParts cs.length cs

def longest : Nat := 63

def padLeft (fill : Char) (width : Nat) (cs : List Char) : List Char :=
  List.replicate (min width (longest + 1) - cs.length) fill ++ cs

namespace Directive

def field (d : Directive) (cs : List Char) : List Char :=
  padLeft (if d.padding = .zeros then '0' else ' ') d.width cs

def letters (d : Directive) (lower upper : Bool) (s : String) : List Char :=
  d.field (if lower then Text.lower s else if upper then Text.upper s else s).toList

def number (d : Directive) (padding : Padding) (digits : Nat) (n : Int) : List Char :=
  let cs := Nat.toDigits 10 n.toNat
  match padding with
  | .none => padLeft ' ' d.width cs
  | .blanks => padLeft ' ' (max digits d.width) cs
  | _ => padLeft '0' (max digits d.width) cs

/-- What a directive without a meaning stands for: itself, except that a modified percent sign loses
what is before it. The short name of a month swaps its case all the same. -/
def meaningless (d : Directive) : List Char :=
  let upper := d.upper || (d.swap && (d.letter = some 'b' || d.letter = some 'h'))
  d.letters false upper (String.ofList (if d.letter = some '%' then ['%'] else d.written))

def allowsModifier (letter modifier : Char) : Bool :=
  let never := ['%', 'a', 'A', 'D', 'F']
  let plain := ['b', 'h', 'B', 'd', 'e', 'H', 'I', 'j', 'k', 'l', 'm', 'M', 'S', 'U', 'V', 'g', 'G',
    'w', 'W']
  let named := ['c', 'x', 'X', 'Y']
  !never.contains letter &&
    (if modifier = 'E' then !plain.contains letter else !named.contains letter)

def abbreviation? (letter : Char) : Option String :=
  match letter with
  | 'c' => some "%a %b %e %H:%M:%S %Y"
  | 'D' => some "%m/%d/%y"
  | 'F' => some "%Y-%m-%d"
  | 'r' => some "%I:%M:%S %p"
  | 'R' => some "%H:%M"
  | 'T' => some "%H:%M:%S"
  | 'x' => some "%m/%d/%y"
  | 'X' => some "%H:%M:%S"
  | _ => none

def plainText (d : Directive) (m : Moment) (letter : Char) : List Char :=
  let count (digits : Nat) (n : Int) := d.number d.padding digits n
  let blankCount (n : Int) := d.number (if d.padding = .usual then .blanks else d.padding) 2 n
  let name (s : String) := d.letters false (d.upper || d.swap) s
  let weekdayName := weekdayNames.getD m.weekday ""
  let monthName := monthNames.getD m.month ""
  let short (s : String) := String.ofList (s.toList.take 3)
  let half := if m.hour < 12 then "AM" else "PM"
  match letter with
  | '%' => d.field ['%']
  | 'n' => d.field ['\n']
  | 't' => d.field ['\t']
  | 'a' => name (short weekdayName)
  | 'A' => name weekdayName
  | 'b' | 'h' => name (short monthName)
  | 'B' => name monthName
  | 'C' => count 2 (m.year / 100)
  | 'd' => count 2 m.monthDay
  | 'e' => blankCount m.monthDay
  | 'g' => count 2 (m.weekYear % 100)
  | 'G' => count 4 m.weekYear
  | 'H' => count 2 m.hour
  | 'I' => count 2 m.clockHour
  | 'j' => count 3 (m.yearDay + 1)
  | 'k' => blankCount m.hour
  | 'l' => blankCount m.clockHour
  | 'm' => count 2 (m.month + 1)
  | 'M' => count 2 m.minute
  | 'p' => d.letters d.swap d.upper half
  | 'P' => d.letters true d.upper half
  | 's' => d.field (toString m.seconds).toList
  | 'S' => count 2 m.second
  | 'u' => count 1 (daysSinceMonday m.day + 1)
  | 'U' => count 2 m.sundayWeek
  | 'V' => count 2 m.week
  | 'w' => count 1 m.weekday
  | 'W' => count 2 m.mondayWeek
  | 'y' => count 2 (m.year % 100)
  | 'Y' => count 4 m.year
  | 'z' =>
    let minutes := m.zone.ahead.natAbs / 60
    d.field [if m.zone.ahead < 0 then '-' else '+'] ++ count 4 (minutes / 60 * 100 + minutes % 60)
  | 'Z' => d.letters d.swap d.upper m.zone.name
  | _ => d.meaningless

def innerText (d : Directive) (m : Moment) : List Char :=
  match d.letter with
  | none => d.meaningless
  | some letter => d.plainText m letter

end Directive

def expand (pattern : String) (m : Moment) : List Char :=
  (partsOf pattern).flatMap fun
    | .char c => [c]
    | .directive d => d.innerText m

def Directive.text (d : Directive) (m : Moment) : List Char :=
  match d.letter with
  | none => d.meaningless
  | some letter =>
    if (d.modifier.map (allowsModifier letter)).getD true then
      match abbreviation? letter with
      | some pattern => d.letters false d.upper (String.ofList (expand pattern m))
      | none => d.plainText m letter
    else d.meaningless

/-- The text of a moment by a pattern; empty if it were longer than the longest text. -/
def format (pattern : String) (m : Moment) : String :=
  let s := String.ofList ((partsOf pattern).flatMap fun
    | .char c => [c]
    | .directive d => d.text m)
  if longest < s.utf8ByteSize then "" else s

end WireRecords.Calendar
