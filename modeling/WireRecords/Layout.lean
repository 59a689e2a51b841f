import WireRecords.Codec
import WireRecords.Json.Print

/-!
# Layouts

A layout describes a record's wire format at run time: a list of field definitions, nested records
with definitions of their own, offsets counted from the start of the outermost record. Fields are
found by a dotted path and read as raw bits from an encoded record. A layout comes from a schema or
is put together by hand.
-/

namespace WireRecords

inductive FieldKind where
  | uint
  | int
  | bool
  | byte
  | enum
  | record
  | unknown (code : Int)
  deriving DecidableEq, Repr

namespace FieldKind

def label : FieldKind → String
  | uint => "uint"
  | int => "int"
  | bool => "bool"
  | byte => "byte"
  | enum => "enum"
  | record => "record"
  | unknown _ => "unknown"

def ofPrimitive : Primitive → FieldKind
  | .integer k => if k.isSigned then int else uint
  | .boolean => bool
  | .byte => byte
  | .enumeration _ _ => enum

end FieldKind

/-- A field's definition without its children. Offsets and lengths are 64-bit words. -/
structure FieldDefinition where
  name : String
  offset : UInt64
  length : UInt64
  order : ByteOrder
  kind : FieldKind
  deriving DecidableEq, Repr

namespace FieldDefinition

def isRecord (d : FieldDefinition) : Bool := d.kind = .record

def stop (d : FieldDefinition) : UInt64 := d.offset + d.length

end FieldDefinition

inductive FieldList where
  | nil
  | cons (head : FieldDefinition) (children : FieldList) (rest : FieldList)
  deriving DecidableEq, Repr

namespace FieldList

instance : Inhabited FieldList := ⟨nil⟩

def count : FieldList → Nat
  | nil => 0
  | cons _ _ rest => rest.count + 1

def add (fields : FieldList) (d : FieldDefinition) (children : FieldList) : FieldList :=
  match fields with
  | nil => cons d children nil
  | cons head inner rest => cons head inner (rest.add d children)

def tops : FieldList → List FieldDefinition
  | nil => []
  | cons d _ rest => d :: rest.tops

def extent (fields : FieldList) : UInt64 :=
  fields.tops.foldl (fun size d => max size d.stop) 0

/-- The definition that a dotted path leads to, with its children. The first field whose name is the
text up to the next point decides; a name that holds a point is never found. -/
def find? : FieldList → List Char → Option (FieldDefinition × FieldList)
  | nil, _ => none
  | cons d children rest, path =>
    let (head, tail) := path.span fun c => c ≠ '.'
    if d.name.toList = head then
      match tail with
      | [] => some (d, children)
      | _ :: tail => children.find? tail
    else rest.find? path

/-- All definitions in preorder, with their full dotted names. -/
def rows : FieldList → String → List (String × FieldDefinition)
  | nil, _ => []
  | cons d children rest, parent =>
    let fullName := if parent = "" then d.name else parent ++ "." ++ d.name
    (fullName, d) :: (children.rows fullName ++ rest.rows parent)

def toJsonItems : FieldList → List Json
  | nil => []
  | cons d children rest =>
    let members : List (String × Json) :=
      [("name", .string d.name), ("offset", .unsigned d.offset), ("length", .unsigned d.length),
        ("order", .string d.order.label), ("type", .string d.kind.label)]
    let inner := children.toJsonItems
    Json.ofMembers (if d.isRecord then members ++ [("fields", .array inner)] else members) ::
      rest.toJsonItems

end FieldList

structure Layout where
  name : String
  fields : FieldList
  deriving DecidableEq, Repr

namespace Layout

def named (name : String) : Layout := ⟨name, .nil⟩

def add (l : Layout) (d : FieldDefinition) (children : FieldList) : Layout :=
  { l with fields := l.fields.add d children }

/-- Size of the record in bytes: where its outermost fields end. -/
def size (l : Layout) : UInt64 := l.fields.extent

def find? (l : Layout) (path : String) : Option (FieldDefinition × FieldList) :=
  l.fields.find? path.toList

/-- The bits of a window as a 64-bit word, the most significant byte first for the big byte order
and last for every other one. Bits beyond 64 fall off. -/
def readBits (order : ByteOrder) (bs : Bytes) : UInt64 :=
  let inOrder := if order = .big then bs else bs.reverse
  inOrder.foldl (fun value b => (value <<< 8) ||| b.toUInt64) 0

def value (l : Layout) (path : String) (data : Bytes) : Except CodecError UInt64 :=
  match l.find? path with
  | none => .error (.invalidField path .notFound)
  | some (d, _) =>
    if d.isRecord then .error (.invalidField path .noScalarValue)
    else if data.length < l.size.toNat then
      .error (.bufferSize "get_field_value" l.size.toNat data.length)
    else .ok (readBits d.order (Bytes.window data d.offset.toNat d.length.toNat))

def alignRight (width : Nat) (s : String) : String :=
  String.ofList (List.replicate (width - s.utf8ByteSize) ' ') ++ s

def alignLeft (width : Nat) (s : String) : String :=
  s ++ String.ofList (List.replicate (width - s.utf8ByteSize) ' ')

def columns (d : FieldDefinition) : String :=
  alignRight 8 (toString d.offset.toNat) ++ alignRight 8 (toString d.length.toNat) ++ "  " ++
    alignLeft 7 d.order.label ++ alignLeft 8 d.kind.label

def rowText (row : String × FieldDefinition) : String := columns row.2 ++ row.1 ++ "\n"

def text (l : Layout) : String :=
  let title := if l.name = "" then "record" else l.name
  s!"{title}: {l.size.toNat} bytes, {l.fields.count} fields\n" ++
    "  offset  length  order  type    name\n" ++
    String.join ((l.fields.rows "").map rowText)

def toJson (l : Layout) : Json :=
  Json.ofMembers [("name", .string l.name), ("size", .unsigned l.size),
    ("fields", .array l.fields.toJsonItems)]

end Layout

namespace Schema

def describe : Schema → Nat → Nat → FieldList
  | nil, _, _ => .nil
  | leaf name slot rest, index, start =>
    .cons ⟨fieldKey name index, .ofNat start, .ofNat slot.byteLen, slot.order,
        FieldKind.ofPrimitive slot.type⟩ .nil
      (rest.describe (index + 1) (start + slot.byteLen))
  | group name inner rest, index, start =>
    .cons ⟨fieldKey name index, .ofNat start, .ofNat inner.byteLen, .unspecified, .record⟩
      (inner.describe 0 start) (rest.describe (index + 1) (start + inner.byteLen))

end Schema

namespace RecordType

def layout (R : RecordType) (name : String) : Layout := ⟨name, R.fields.describe 0 0⟩

end RecordType

end WireRecords
