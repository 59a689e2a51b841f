import WireRecords.Layout
import WireRecords.Log.Hub

/-!
# Logged violations

An operation that refuses a buffer because it is too short says so in the log before it returns the
error. The operations that answer with a status do not log.
-/

namespace WireRecords.Log.Hub

def codecName : String := "structwire.packet"

def shortMessage (h : Hub) (operation : String) (required actual : Nat) : Message where
  level := .debug
  text := "buffer too small"
  metadata := [("operation", operation), ("required", toString required),
    ("actual", toString actual)]
  file := h.reportFile
  line := 13
  function := "throw_buffer_size_error"

def report (h : Hub) (e : CodecError) : Hub :=
  match e with
  | .bufferSize operation required actual =>
    let (h, id) := h.getLogger codecName
    h.log id (h.shortMessage operation required actual)
  | _ => h

def reporting {α : Type} (h : Hub) (result : Except CodecError α) : Except CodecError α × Hub :=
  match result with
  | .ok a => (.ok a, h)
  | .error e => (.error e, h.report e)

def encode (h : Hub) (R : RecordType) (v : R.Value) (buf : Bytes) :
    Except CodecError Bytes × Hub := h.reporting (R.encode v buf)

def decode (h : Hub) (R : RecordType) (buf : Bytes) : Except CodecError R.Value × Hub :=
  h.reporting (R.decode buf)

def fieldValue (h : Hub) (l : Layout) (path : String) (data : Bytes) :
    Except CodecError UInt64 × Hub := h.reporting (l.value path data)

def tryEncode (h : Hub) (R : RecordType) (v : R.Value) (buf : Bytes) :
    (Outcome Nat × Bytes) × Hub := (R.tryEncode v buf, h)

def tryDecode (h : Hub) (R : RecordType) (buf : Bytes) : Outcome R.Value × Hub :=
  (R.tryDecode buf, h)

end WireRecords.Log.Hub
