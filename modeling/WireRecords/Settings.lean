import WireRecords.Decimal.General
import WireRecords.Decimal.Literal
import WireRecords.FileSystem
import WireRecords.Json.Parse
import WireRecords.Json.Print

/-!
# Settings

A flat map from dotted keys to typed values. It is filled from built-in defaults, JSON documents,
environment variables and command-line arguments; whatever is loaded later replaces what was there
under the same key. The getters convert between the types where that makes sense and fall back to a
default otherwise.
-/

namespace WireRecords

inductive Setting where
  | text (value : String)
  | int (value : Int64)
  | double (value : Binary64)
  | bool (value : Bool)
  | list (items : List String)
  deriving DecidableEq, Repr

structure Environment where
  assignments : List String := []
  deriving DecidableEq, Repr

namespace Environment

def opening (name : String) : List Char := (Text.beforeNul name).toList ++ ['=']

/-- The value of a variable: whatever follows its name and an equals sign. No variable has the empty
name. -/
def get? (env : Environment) (name : String) : Option String :=
  if Text.beforeNul name = "" then none
  else env.assignments.findSome? fun text =>
    if (opening name).isPrefixOf text.toList then
      some (String.ofList (text.toList.drop (opening name).length))
    else none

/-- Sets a variable. A name that is empty or has an equals sign is refused. -/
def set (env : Environment) (name value : String) : Environment :=
  if Text.beforeNul name = "" ∨ '=' ∈ (Text.beforeNul name).toList then env
  else
    let others := env.assignments.filter fun text => !(opening name).isPrefixOf text.toList
    { assignments :=
        others ++ [String.ofList (opening name ++ (Text.beforeNul value).toList)] }

/-- The variable that holds a key: the key in upper case, with underscores for points and dashes,
behind a text that all variables of a program start with. -/
def variableOf (start key : String) : String :=
  start ++ String.ofList (key.toList.map fun c => if c = '.' ∨ c = '-' then '_' else c.toUpper)

end Environment

namespace Setting

def parseBool (s : String) : Bool := ["1", "true", "yes", "on"].contains (Text.lower s)

/-- The items between commas. One empty item at the end is dropped, so the empty text has none. -/
def commaItems (s : String) : List String :=
  let items := Text.split ',' s
  if items.getLast? = some "" then items.dropLast else items

/-- The integer part; numbers that no 64-bit integer can hold become the least one. -/
def wholePart (x : Binary64) : Int64 :=
  match x.truncate? with
  | some n =>
    if Int64.minValue.toInt ≤ n ∧ n ≤ Int64.maxValue.toInt then Int64.ofInt n else Int64.minValue
  | none => Int64.minValue

def string? : Setting → Option String
  | text s => some s
  | int n => some (String.ofList (Json.intText n.toInt))
  | double x => some (Decimal.general x)
  | bool b => some (if b then "true" else "false")
  | list _ => none

def int? : Setting → Option Int64
  | int n => some n
  | double x => some (wholePart x)
  | bool b => some (if b then 1 else 0)
  | text s => Literal.int64? s
  | list _ => none

def double? : Setting → Option Binary64
  | double x => some x
  | int n => some (Binary64.ofInt n.toInt)
  | text s => Literal.float? s
  | _ => none

def bool? : Setting → Option Bool
  | bool b => some b
  | int n => some (n != 0)
  | text s => some (parseBool s)
  | _ => none

def list? : Setting → Option (List String)
  | list items => some items
  | text s => some (commaItems s)
  | _ => none

def toJson : Setting → Json
  | text s => .string s
  | int n => .signed n
  | double x => .float x
  | bool b => .bool b
  | list items => .array (items.map .string)

def itemText : Json → String
  | .string s => s
  | j => j.compact

/-- The value of a member that is neither null nor an object. An integer beyond 64 signed bits is
kept as its decimal text. -/
def ofJson? : Json → Option Setting
  | .bool b => some (bool b)
  | .unsigned n =>
    if n.toNat < 1 <<< 63 then some (int (Int64.ofNat n.toNat))
    else some (text (String.ofList (Json.natText n.toNat)))
  | .signed n => some (int n)
  | .float x => some (double x)
  | .string s => some (text s)
  | .array items => some (list (items.map itemText))
  | .null => none
  | .object _ => none

end Setting

/-- The key of a member inside the object that `parent` names. The outermost object has no name. -/
def dottedKey (parent name : String) : String :=
  if parent = "" then name else parent ++ "." ++ name

mutual

def flattenMember (key : String) : Json → List (String × Setting)
  | .object ms => flattenMembers key ms
  | j => (Setting.ofJson? j).toList.map fun value => (key, value)

def flattenMembers (parent : String) : List (String × Json) → List (String × Setting)
  | [] => []
  | (name, j) :: ms =>
    flattenMember (dottedKey parent name) j ++ flattenMembers parent ms

end

/-- How the format of a file is known: it is JSON, or the name must say so. -/
inductive FileFormat where
  | json
  | byName
  deriving DecidableEq, Repr

structure Settings where
  values : KeyMap Setting := KeyMap.empty
  positional : List String := []

namespace Settings

def empty : Settings := {}

instance : Inhabited Settings := ⟨empty⟩

def get? (s : Settings) (key : String) : Option Setting := s.values.get? key

def has (s : Settings) (key : String) : Bool := s.values.contains key

def set (s : Settings) (key : String) (value : Setting) : Settings :=
  { s with values := s.values.insert key value }

def remove (s : Settings) (key : String) : Settings :=
  { s with values := s.values.erase key }

def setAll (s : Settings) (entries : List (String × Setting)) : Settings :=
  { s with values := s.values.insertAll entries }

def getString (s : Settings) (key fallback : String) : String :=
  ((s.get? key).bind Setting.string?).getD fallback

def getInt (s : Settings) (key : String) (fallback : Int64) : Int64 :=
  ((s.get? key).bind Setting.int?).getD fallback

def getDouble (s : Settings) (key : String) (fallback : Binary64) : Binary64 :=
  ((s.get? key).bind Setting.double?).getD fallback

def getBool (s : Settings) (key : String) (fallback : Bool) : Bool :=
  ((s.get? key).bind Setting.bool?).getD fallback

def getList (s : Settings) (key : String) (fallback : List String) : List String :=
  ((s.get? key).bind Setting.list?).getD fallback

section

variable {s : Settings} {key : String} {value : Setting}

theorem getString_of_get? (stored : s.get? key = some value) (fallback : String) :
    s.getString key fallback = value.string?.getD fallback := by
  rw [getString, stored, Option.bind_some]

theorem getInt_of_get? (stored : s.get? key = some value) (fallback : Int64) :
    s.getInt key fallback = value.int?.getD fallback := by
  rw [getInt, stored, Option.bind_some]

theorem getList_of_get? (stored : s.get? key = some value) (fallback : List String) :
    s.getList key fallback = value.list?.getD fallback := by
  rw [getList, stored, Option.bind_some]

end

def keysStartingWith (s : Settings) (start : String) : List String :=
  s.values.keys.filter fun key => start.toList.isPrefixOf key.toList

def documentMembers? (text : String) : Option (List (String × Json)) :=
  match Json.parse? text with
  | some (.object ms) => some ms
  | _ => none

def loadJson? (s : Settings) (text : String) : Option Settings :=
  (documentMembers? text).map fun ms => s.setAll (flattenMembers "" ms)

/-- Loads a JSON file. A file whose format its name must show needs the extension `.json`, in any
letter case. -/
def loadFile? (s : Settings) (fs : FileSystem) (path : String) (format : FileFormat) :
    Option Settings :=
  if format = .byName ∧ Text.lower (FileSystem.extension path) ≠ ".json" then none
  else do
    let content ← fs.read? path
    let text ← Json.textOf? content
    s.loadJson? text

def environmentEntries (env : Environment) (start : String) (keys : List String) :
    List (String × Setting) :=
  keys.filterMap fun key =>
    (env.get? (Environment.variableOf start key)).map fun value => (key, .text value)

def loadEnvironment (s : Settings) (env : Environment) (start : String) (keys : List String) :
    Settings × Nat :=
  let entries := environmentEntries env start keys
  (s.setAll entries, entries.length)

/-- The setting that an argument stands for: two dashes and a key, which becomes true, or two
dashes, a key, an equals sign and a text. -/
def ofArgument? (argument : String) : Option (String × Setting) :=
  match argument.toList with
  | '-' :: '-' :: cs =>
    match cs.span fun c => c ≠ '=' with
    | (key, []) => some (String.ofList key, .bool true)
    | (key, _ :: value) => some (String.ofList key, .text (String.ofList value))
  | _ => none

def loadArguments (s : Settings) (arguments : List String) : Settings × Nat :=
  let given := arguments.drop 1
  let entries := given.filterMap ofArgument?
  let others := given.filter fun a => (ofArgument? a).isNone
  ({ s.setAll entries with positional := s.positional ++ others }, entries.length)

def toJson (s : Settings) : Json :=
  Json.ofMembers (s.values.entries.map fun (key, value) => (key, value.toJson))

def toJsonText (s : Settings) : String := s.toJson.compact

end Settings

end WireRecords
