import WireRecords.Schema

/-!
# Declared types

Which types can stand in a record, and with which byte order: a single byte or a nested record has
none, and a wider primitive must have one.
-/

namespace WireRecords

/-- A type that someone might want to put into a record. -/
inductive DeclaredType where
  | primitive (type : Primitive)
  | record (fields : Schema)
  | other
  deriving DecidableEq, Repr

namespace DeclaredType

def isPrimitive : DeclaredType → Bool
  | primitive _ => true
  | _ => false

def isRecord : DeclaredType → Bool
  | record _ => true
  | _ => false

def isSingleByte : DeclaredType → Bool
  | primitive p => p.width = .one
  | _ => false

def isUnordered (t : DeclaredType) : Bool := t.isSingleByte || t.isRecord

def isOrdered : DeclaredType → Bool
  | primitive p => p.width ≠ .one
  | _ => false

def allows (t : DeclaredType) (order : ByteOrder) : Bool :=
  if order = .unspecified then t.isUnordered else t.isOrdered

def wireSize? : DeclaredType → Option Nat
  | primitive p => some p.byteLen
  | record s => some s.byteLen
  | other => none

end DeclaredType

end WireRecords
