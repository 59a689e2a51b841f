import WireRecords.Text

/-!
# Errors

Operations that can refuse their input say why by a value of `CodecError`; `CodecError.message`
holds all wording. Callers that prefer a code over an error get a `Status`.
-/

namespace WireRecords

/-- What is wrong with one field. -/
inductive FieldFault where
  | missing
  | expectedObject
  | expectedBoolean
  | expectedInteger
  | aboveRange (value : Nat)
  | outsideRange (value : Int)
  | notFound
  | noScalarValue
  | because (reason : String)
  deriving DecidableEq, Repr

namespace FieldFault

def text : FieldFault → String
  | missing => ": missing"
  | expectedObject => ": expected an object"
  | expectedBoolean => ": expected a boolean"
  | expectedInteger => ": expected an integer"
  | aboveRange value => s!": value {value} out of range"
  | outsideRange value => s!" value: {value}"
  | notFound => ": Field not found"
  | noScalarValue => ": Nested record has no scalar value"
  | because reason => ": " ++ reason

end FieldFault

inductive CodecError where
  | general (text : String)
  | bufferSize (operation : String) (required actual : Nat)
  | invalidField (path : String) (fault : FieldFault)
  deriving DecidableEq, Repr

namespace CodecError

def text : CodecError → String
  | general text => "PacketError: " ++ text
  | bufferSize operation required actual =>
    s!"PacketError: {operation} needs {required} bytes, buffer has {actual}"
  | invalidField path fault => s!"PacketError: Invalid field '{path}'" ++ fault.text

def message (e : CodecError) : String := Text.beforeNul e.text

end CodecError

/-- Result codes of the operations that report failure without an error value. Codes beyond the
named ones are kept as they are. -/
structure Status where
  code : Int
  deriving DecidableEq, Repr

namespace Status

def ok : Status := ⟨0⟩
def bufferTooSmall : Status := ⟨1⟩
def invalidArgument : Status := ⟨2⟩
def ioError : Status := ⟨3⟩

def category : String := "structwire"

def message (s : Status) : String :=
  if s = ok then "ok"
  else if s = bufferTooSmall then "buffer too small"
  else if s = invalidArgument then "invalid argument"
  else if s = ioError then "I/O error"
  else "unknown error"

def isError (s : Status) : Bool := s.code ≠ 0

end Status

abbrev Outcome (α : Type) := Except Status α

namespace Outcome

variable {α : Type}

def hasValue : Outcome α → Bool
  | .ok _ => true
  | .error _ => false

def value [Inhabited α] : Outcome α → α
  | .ok a => a
  | .error _ => default

def valueOr (fallback : α) : Outcome α → α
  | .ok a => a
  | .error _ => fallback

def status : Outcome α → Status
  | .ok _ => .ok
  | .error s => s

end Outcome

end WireRecords
