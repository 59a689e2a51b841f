import WireRecords.Error
import WireRecords.Schema

/-!
# Encoding and decoding records

A record is written field by field, in place, each field at its offset inside the window of the
record that holds it, and it is read back the same way over a record that exists already. Every
entry point first checks that the buffer is long enough, so a failed encode writes nothing.
-/

namespace WireRecords

namespace Schema

/-- Writes every field at `base` plus its offset, nested records inside their own windows. -/
def writeAt : (s : Schema) → List Nat → s.Record → Nat → Bytes → Bytes
  | leaf _ slot rest, o :: os, r, base, buf =>
    rest.writeAt os r.2 base (Bytes.overwrite buf (base + o) (slot.encode r.1))
  | group _ inner rest, o :: os, r, base, buf =>
    rest.writeAt os r.2 base (inner.writeAt inner.offsets r.1 (base + o) buf)
  | nil, _, _, _, buf => buf
  | leaf _ _ _, [], _, _, buf => buf
  | group _ _ _, [], _, _, buf => buf

/-- Reads every field from `base` plus its offset over the values that the record already has. -/
def readAt : (s : Schema) → List Nat → s.Record → Nat → Bytes → s.Record
  | leaf _ slot rest, o :: os, r, base, buf =>
    (slot.decode (Bytes.window buf (base + o) slot.byteLen), rest.readAt os r.2 base buf)
  | group _ inner rest, o :: os, r, base, buf =>
    (inner.readAt inner.offsets r.1 (base + o) buf, rest.readAt os r.2 base buf)
  | nil, _, r, _, _ => r
  | leaf _ _ _, [], r, _, _ => r
  | group _ _ _, [], r, _, _ => r

theorem length_writeAt (s : Schema) (r : s.Record) (start base : Nat) (buf : Bytes)
    (h : base + start + s.byteLen ≤ buf.length) :
    (s.writeAt (s.offsetsFrom start) r base buf).length = buf.length := by
  induction s generalizing start base buf with
  | nil => rfl
  | leaf name slot rest ih =>
    simp only [byteLen] at h
    have hw : (Bytes.overwrite buf (base + start) (slot.encode r.1)).length = buf.length :=
      Bytes.length_overwrite (by rw [Slot.length_encode]; omega)
    rw [offsetsFrom, writeAt, ih _ _ _ _ (by rw [hw]; omega), hw]
  | group name inner rest ih_inner ih_rest =>
    simp only [byteLen] at h
    have hw := ih_inner r.1 0 (base + start) buf (by omega)
    rw [offsetsFrom, writeAt, offsets, ih_rest _ _ _ _ (by rw [hw]; omega), hw]

end Schema

/-- A record type: its fields and the values that a new record starts with. -/
structure RecordType where
  fields : Schema
  initial : fields.Record := Schema.Record.zero fields

namespace RecordType

abbrev Value (R : RecordType) : Type := R.fields.Record

def byteLen (R : RecordType) : Nat := R.fields.byteLen

def toFixed (R : RecordType) (v : R.Value) : { bs : Bytes // bs.length = R.byteLen } :=
  ⟨R.fields.writeAt R.fields.offsets v 0 (List.replicate R.byteLen 0), by
    have h := R.fields.length_writeAt v 0 0 (List.replicate R.byteLen 0) (by simp [byteLen])
    simpa [Schema.offsets] using h⟩

def toBytes (R : RecordType) (v : R.Value) : Bytes :=
  R.fields.writeAt R.fields.offsets v 0 (List.replicate R.byteLen 0)

def write (R : RecordType) (v : R.Value) (buf : Bytes) : Except CodecError Unit × Bytes :=
  if buf.length < R.byteLen then (.error (.bufferSize "encode" R.byteLen buf.length), buf)
  else (.ok (), R.fields.writeAt R.fields.offsets v 0 buf)

def encode (R : RecordType) (v : R.Value) (buf : Bytes) : Except CodecError Bytes :=
  match R.write v buf with
  | (.ok (), buf) => .ok buf
  | (.error e, _) => .error e

def decode (R : RecordType) (buf : Bytes) : Except CodecError R.Value :=
  if buf.length < R.byteLen then .error (.bufferSize "decode" R.byteLen buf.length)
  else .ok (R.fields.readAt R.fields.offsets R.initial 0 buf)

/-- Writes a record if the buffer is long enough, and returns the number of bytes written together
with the buffer. -/
def tryEncode (R : RecordType) (v : R.Value) (buf : Bytes) : Outcome Nat × Bytes :=
  if buf.length < R.byteLen then (.error .bufferTooSmall, buf)
  else (.ok R.byteLen, R.fields.writeAt R.fields.offsets v 0 buf)

def tryDecode (R : RecordType) (buf : Bytes) : Outcome R.Value :=
  if buf.length < R.byteLen then .error .bufferTooSmall
  else .ok (R.fields.readAt R.fields.offsets R.initial 0 buf)

end RecordType

end WireRecords
