import WireRecords.Codec

/-!
# Field lists

A record type lists its fields twice: the outward list is followed when a record is encoded and the
inward list when one is decoded. The two lists are written separately, so they are checked against
each other, position by position, before the type is used. Offsets come from the outward lists
alone.
-/

namespace WireRecords

/-- A list of fields. The type of a nested record brings both of its own lists along. -/
inductive Listing where
  | nil
  | leaf (name : Option String) (slot : Slot) (rest : Listing)
  | group (name : Option String) (outward inward : Listing) (rest : Listing)
  deriving DecidableEq, Repr

namespace Listing

/-- The type of a field's value. A record type is told by its two lists. -/
inductive ValueType where
  | primitive (type : Primitive)
  | record (outward inward : Listing)
  deriving DecidableEq, Repr

def declared : Listing → List (ValueType × ByteOrder)
  | nil => []
  | leaf _ slot rest => (.primitive slot.type, slot.order) :: rest.declared
  | group _ outward inward rest => (.record outward inward, .unspecified) :: rest.declared

def agrees : Listing → Listing → Bool
  | nil, nil => true
  | leaf _ a rest, leaf _ b rest' => decide (a = b) && rest.agrees rest'
  | group _ outward inward rest, group _ outward' inward' rest' =>
    decide (outward = outward' ∧ inward = inward') && rest.agrees rest'
  | _, _ => false

/-- Whether the types of the nested records pass the same check, on every level. -/
def checked : Listing → Bool
  | nil => true
  | leaf _ _ rest => rest.checked
  | group _ outward inward rest =>
    outward.agrees inward && outward.checked && rest.checked

def outgoing : Listing → Schema
  | nil => .nil
  | leaf name slot rest => .leaf name slot rest.outgoing
  | group name outward _ rest => .group name outward.outgoing rest.outgoing

def incoming : Listing → Schema
  | nil => .nil
  | leaf name slot rest => .leaf name slot rest.incoming
  | group name _ inward rest => .group name inward.incoming rest.incoming

def ofSchema : Schema → Listing
  | .nil => nil
  | .leaf name slot rest => leaf name slot (ofSchema rest)
  | .group name inner rest => group name (ofSchema inner) (ofSchema inner) (ofSchema rest)

end Listing

namespace Schema

/-- Reads the fields of one list over the values that the record already has, from where another
list has them, on every level. -/
def readBy : (s t : Schema) → List Nat → t.Record → Nat → Bytes → t.Record
  | leaf _ _ rest, leaf _ slot rest', o :: os, r, base, buf =>
    (slot.decode (Bytes.window buf (base + o) slot.byteLen), rest.readBy rest' os r.2 base buf)
  | group _ inner rest, group _ inner' rest', o :: os, r, base, buf =>
    (inner.readBy inner' inner.offsets r.1 (base + o) buf, rest.readBy rest' os r.2 base buf)
  | _, _, _, r, _, _ => r

end Schema

end WireRecords
