import WireRecords.Identifier
import WireRecords.Samples

/-!
# The catalogue of the inspector

The record types that the inspector knows by name. Some of them can also be told by the first byte
of a message.
-/

namespace WireRecords.Inspect

structure KnownRecord where
  name : String
  type : RecordType
  identifier : Option Tag := none

namespace KnownRecord

def byteType : TagType := .ofPrimitive Primitive.u8

def matchedBy (r : KnownRecord) (first : UInt8) : Bool :=
  match r.identifier with
  | none => false
  | some id => id.matchedBy ⟨byteType, first.toNat⟩

end KnownRecord

/-- All record types, in the order in which they are tried. -/
def catalogue : List KnownRecord :=
  [{ name := "packet", type := Samples.packet },
    { name := "integers", type := Samples.integers,
      identifier := some ⟨KnownRecord.byteType, 42⟩ },
    { name := "frame", type := Samples.frame, identifier := some ⟨KnownRecord.byteType, 7⟩ }]

def named? (name : String) : Option KnownRecord := catalogue.find? fun r => r.name = name

def startingWith? (first : UInt8) : Option KnownRecord :=
  catalogue.find? fun r => r.matchedBy first

end WireRecords.Inspect
