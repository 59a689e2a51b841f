import WireRecords.Primitive

/-!
# Words in a buffer

Unsigned words of two, four and eight bytes, read and written at any position, aligned or not.
-/

namespace WireRecords.Word

def read (e : Endian) (width : Width) (buf : Bytes) (start : Nat) : Nat :=
  e.decode (Bytes.window buf start width.bytes)

def write (e : Endian) (width : Width) (buf : Bytes) (start n : Nat) : Bytes :=
  Bytes.overwrite buf start (e.encode width.bytes n)

end WireRecords.Word
