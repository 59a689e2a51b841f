import WireRecords.Primitive

/-!
# Identifiers

A record type may carry a constant that tells its messages apart from others. A candidate matches by
its mathematical value, whatever its width and signedness; truth values and characters count by
their unsigned value. A candidate of an enumeration only matches an identifier of that very
enumeration.
-/

namespace WireRecords

inductive IntegralType where
  | boolean
  | integer (kind : IntKind)
  deriving DecidableEq, Repr

namespace IntegralType

/-- The value by which two integral values are compared. -/
def comparable : IntegralType → Int → Int
  | boolean, n => n
  | integer k, n => if k.isCharacter then n % (k.patterns : Int) else n

def least : IntegralType → Int
  | boolean => 0
  | integer k => k.least

def greatest : IntegralType → Int
  | boolean => 1
  | integer k => k.greatest

end IntegralType

inductive TagType where
  | integral (type : IntegralType)
  | enumeration (name : String) (base : IntegralType)
  deriving DecidableEq, Repr

namespace TagType

def base : TagType → IntegralType
  | integral t => t
  | enumeration _ t => t

def ofPrimitive : Primitive → TagType
  | .integer k => integral (.integer k)
  | .boolean => integral .boolean
  | .byte => enumeration "byte" (.integer (.unsigned .one))
  | .enumeration name k => enumeration name (.integer k)

end TagType

structure Tag where
  type : TagType
  value : Int
  deriving DecidableEq, Repr

namespace Tag

/-- Whether a candidate stands for the identifier. -/
def matchedBy (identifier candidate : Tag) : Bool :=
  match candidate.type with
  | .enumeration _ _ => candidate = identifier
  | .integral t =>
    t.comparable candidate.value = identifier.type.base.comparable identifier.value

end Tag

end WireRecords
