import WireRecords.Binary64
import WireRecords.KeyMap

/-!
# JSON values

Integers keep the storage that their text gave them: a numeral without a sign is unsigned, one with
a minus is signed, and anything with a fraction, an exponent or too many digits is a float. The
members of an object are kept in increasing key order, one per key.
-/

namespace WireRecords

inductive Json where
  | null
  | bool (value : Bool)
  | unsigned (value : UInt64)
  | signed (value : Int64)
  | float (value : Binary64)
  | string (value : String)
  | array (items : List Json)
  | object (members : List (String × Json))
  deriving Repr

namespace Json

instance : Inhabited Json := ⟨null⟩

/-- The integer that a value holds, in either storage. -/
def integer? : Json → Option Int
  | unsigned n => some n.toNat
  | signed n => some n.toInt
  | _ => none

def member? (j : Json) (key : String) : Option Json :=
  match j with
  | object ms => Entries.find? ms key
  | _ => none

/-- An object with the given members; of two members with one key the later one stays. -/
def ofMembers (ms : List (String × Json)) : Json :=
  object (ms.foldl (fun acc m => Entries.insert acc m.1 m.2) [])

def ofNat (n : Nat) : Json := unsigned (UInt64.ofNat n)

def ofInt (n : Int) : Json := signed (Int64.ofInt n)

end Json

end WireRecords
