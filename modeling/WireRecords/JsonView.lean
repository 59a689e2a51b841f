import WireRecords.Codec
import WireRecords.Json

/-!
# The JSON view of a record

A record is an object with one member per field, under the field's key. Nested records are nested
objects, truth values are booleans, and every other value is an integer. Reading goes through the
fields in declaration order and reports the first one that does not conform; members that no field
asks for are ignored.
-/

namespace WireRecords

namespace Scalar

/-- A truth value as a boolean, any other value as an integer in the storage of its signedness. -/
def toJson {p : Primitive} (v : Scalar p) : Json :=
  if p = .boolean then .bool (v.val ≠ 0)
  else if p.isSigned then .ofInt v.val
  else .ofNat v.val.toNat

/-- Whether a word in unsigned storage is at most the primitive's greatest value, as an unsigned
word itself. -/
def fitsUnsigned (p : Primitive) (n : UInt64) : Bool := n ≤ UInt64.ofInt p.greatest

def fitsSigned (p : Primitive) (n : Int64) : Bool :=
  if p.isSigned then Int64.ofInt p.least ≤ n && n ≤ Int64.ofInt p.greatest
  else 0 ≤ n && n.toUInt64 ≤ UInt64.ofInt p.greatest

/-- An integer that must lie inside the primitive's range. The lowest bits of a word that does are
the value's own. -/
def integerOfJson (p : Primitive) (j : Json) : Except FieldFault (Scalar p) :=
  match j with
  | .unsigned n =>
    if fitsUnsigned p n then .ok (ofBits p n.toNat) else .error (.aboveRange n.toNat)
  | .signed n =>
    if fitsSigned p n then .ok (ofBits p n.toUInt64.toNat) else .error (.outsideRange n.toInt)
  | _ => .error .expectedInteger

def ofJson (p : Primitive) (j : Json) : Except FieldFault (Scalar p) :=
  match p, j with
  | .boolean, .bool b => .ok (Scalar.ofBits .boolean b.toNat)
  | .boolean, _ => .error .expectedBoolean
  | p, j => integerOfJson p j

end Scalar

abbrev FieldPath := List String

namespace FieldPath

def text (path : FieldPath) : String :=
  if path = [] then "<root>" else ".".intercalate path

end FieldPath

namespace Schema

def memberList : (s : Schema) → Nat → s.Record → List (String × Json)
  | nil, _, _ => []
  | leaf name _ rest, index, r =>
    (fieldKey name index, r.1.toJson) :: rest.memberList (index + 1) r.2
  | group name inner rest, index, r =>
    (fieldKey name index, Json.ofMembers (inner.memberList 0 r.1)) ::
      rest.memberList (index + 1) r.2

def toJson (s : Schema) (r : s.Record) : Json := Json.ofMembers (s.memberList 0 r)

/-- Reads every field from the members of an object, over the values that the record already has. -/
def ofMembers : (s : Schema) → Nat → FieldPath → List (String × Json) → s.Record →
    Except CodecError s.Record
  | nil, _, _, _, r => .ok r
  | leaf name slot rest, index, path, ms, r =>
    let place := path ++ [fieldKey name index]
    match Entries.find? ms (fieldKey name index) with
    | none => .error (.invalidField (FieldPath.text place) .missing)
    | some j =>
      match Scalar.ofJson slot.type j with
      | .error fault => .error (.invalidField (FieldPath.text place) fault)
      | .ok v => (rest.ofMembers (index + 1) path ms r.2).map fun tail => (v, tail)
  | group name inner rest, index, path, ms, r =>
    let place := path ++ [fieldKey name index]
    match Entries.find? ms (fieldKey name index) with
    | none => .error (.invalidField (FieldPath.text place) .missing)
    | some (.object inside) =>
      match inner.ofMembers 0 place inside r.1 with
      | .error e => .error e
      | .ok v => (rest.ofMembers (index + 1) path ms r.2).map fun tail => (v, tail)
    | some _ => .error (.invalidField (FieldPath.text place) .expectedObject)

end Schema

namespace RecordType

def toJson (R : RecordType) (v : R.Value) : Json := R.fields.toJson v

def ofJson (R : RecordType) (j : Json) : Except CodecError R.Value :=
  match j with
  | .object ms => R.fields.ofMembers 0 [] ms R.initial
  | _ => .error (.invalidField (FieldPath.text []) .expectedObject)

end RecordType

end WireRecords
