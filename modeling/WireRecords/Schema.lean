import WireRecords.Primitive

/-!
# Record schemas

A schema is the list of a record's fields in wire order. A field is a primitive, declared with the
byte order that its width asks for, or a nested record. `Schema.Record` is the type of the values of
a schema. Fields lie back to back without padding, so offsets are partial sums of sizes.
-/

namespace WireRecords

/-- A declared primitive field: a single byte has no byte order, anything wider must have one. -/
inductive Slot where
  | single (type : Primitive) (width_eq : type.width = .one := by decide)
  | ordered (type : Primitive) (endian : Endian) (width_ne : type.width ≠ .one := by decide)
  deriving DecidableEq, Repr

namespace Slot

def type : Slot → Primitive
  | single t _ => t
  | ordered t _ _ => t

def order : Slot → ByteOrder
  | single _ _ => .unspecified
  | ordered _ e _ => .ofEndian e

def byteLen (s : Slot) : Nat := s.type.byteLen

def encode (s : Slot) (v : Scalar s.type) : Bytes := v.encodeOrdered s.order

def decode (s : Slot) (bs : Bytes) : Scalar s.type := Scalar.decodeOrdered s.type s.order bs

theorem encode_ordered {t : Primitive} (e : Endian) (h : t.width ≠ .one)
    (v : Scalar (ordered t e h).type) : (ordered t e h).encode v = v.encode e := by
  cases e <;> rfl

theorem decode_ordered {t : Primitive} (e : Endian) (h : t.width ≠ .one) (bs : Bytes) :
    (ordered t e h).decode bs = Scalar.decode _ e bs := by
  cases e <;> rfl

@[simp] theorem length_encode (s : Slot) (v : Scalar s.type) : (s.encode v).length = s.byteLen := by
  cases s with
  | single t h => exact (Primitive.byteLen_of_width h).symm
  | ordered t e h =>
    rw [encode_ordered]
    exact e.length_encode t.byteLen _

end Slot

/-- A field without a name, or with an empty one, goes by its position. -/
def fieldKey (name : Option String) (index : Nat) : String :=
  match name with
  | none => toString index
  | some n => if n = "" then toString index else n

inductive Schema where
  | nil
  | leaf (name : Option String) (slot : Slot) (rest : Schema)
  | group (name : Option String) (inner : Schema) (rest : Schema)
  deriving DecidableEq, Repr

namespace Schema

/-- Serialized size: the sum of the field sizes, without padding. -/
def byteLen : Schema → Nat
  | nil => 0
  | leaf _ slot rest => slot.byteLen + rest.byteLen
  | group _ inner rest => inner.byteLen + rest.byteLen

def fieldCount : Schema → Nat
  | nil => 0
  | leaf _ _ rest => rest.fieldCount + 1
  | group _ _ rest => rest.fieldCount + 1

def offsetsFrom (start : Nat) : Schema → List Nat
  | nil => []
  | leaf _ slot rest => start :: rest.offsetsFrom (start + slot.byteLen)
  | group _ inner rest => start :: rest.offsetsFrom (start + inner.byteLen)

def offsets (s : Schema) : List Nat := s.offsetsFrom 0

def Record : Schema → Type
  | nil => Unit
  | leaf _ slot rest => Scalar slot.type × rest.Record
  | group _ inner rest => inner.Record × rest.Record

def flatten : Schema → List Slot
  | nil => []
  | leaf _ slot rest => slot :: rest.flatten
  | group _ inner rest => inner.flatten ++ rest.flatten

/-- Two field lists of one record type agree when they declare the same types in the same order with
the same byte orders. Names are free. -/
def agrees : Schema → Schema → Bool
  | nil, nil => true
  | leaf _ a rest, leaf _ b rest' => decide (a = b) && rest.agrees rest'
  | group _ a rest, group _ b rest' => decide (a = b) && rest.agrees rest'
  | _, _ => false

namespace Record

def zero : (s : Schema) → s.Record
  | nil => ()
  | leaf _ slot rest => (Scalar.zero slot.type, zero rest)
  | group _ inner rest => (zero inner, zero rest)

/-- The values of all primitive fields, nested ones in place. -/
def leaves : (s : Schema) → s.Record → List Int
  | nil, _ => []
  | leaf _ _ rest, r => r.1.val :: leaves rest r.2
  | group _ inner rest, r => leaves inner r.1 ++ leaves rest r.2

/-- Takes a record's values off the front of a list; nothing if the list is too short or a value is
out of range. -/
def ofLeaves? : (s : Schema) → List Int → Option (s.Record × List Int)
  | nil, ns => some ((), ns)
  | leaf _ _ _, [] => none
  | leaf _ slot rest, n :: ns => do
    let v ← Scalar.ofInt? slot.type n
    let (r, ns) ← ofLeaves? rest ns
    pure ((v, r), ns)
  | group _ inner rest, ns => do
    let (v, ns) ← ofLeaves? inner ns
    let (r, ns) ← ofLeaves? rest ns
    pure ((v, r), ns)

instance decEq : (s : Schema) → DecidableEq s.Record
  | nil => fun _ _ => isTrue rfl
  | leaf _ slot rest =>
    have := decEq rest
    inferInstanceAs (DecidableEq (Scalar slot.type × rest.Record))
  | group _ inner rest =>
    have := decEq inner
    have := decEq rest
    inferInstanceAs (DecidableEq (inner.Record × rest.Record))

end Record

structure FieldInfo where
  name : Option String
  key : String
  order : ByteOrder
  byteLen : Nat
  isRecord : Bool
  deriving DecidableEq, Repr

def fieldInfos (index : Nat) : Schema → List FieldInfo
  | nil => []
  | leaf name slot rest =>
    ⟨name, fieldKey name index, slot.order, slot.byteLen, false⟩ :: rest.fieldInfos (index + 1)
  | group name inner rest =>
    ⟨name, fieldKey name index, .unspecified, inner.byteLen, true⟩ :: rest.fieldInfos (index + 1)

end Schema

end WireRecords
