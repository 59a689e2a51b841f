import WireRecords.Proofs.Place
import WireRecords.Samples

/-!
# Writing in place

The windows of a record's fields tile it, so writing the fields one by one into a buffer leaves the
concatenation of all primitive fields there and every other byte as it was. Nesting leaves no trace
in it: a nested record can give way to its own fields. All ways to encode a record agree on these
bytes, and one that has no room for them writes nothing.
-/

namespace WireRecords

namespace Schema

theorem length_offsetsFrom (s : Schema) (start : Nat) :
    (s.offsetsFrom start).length = s.fieldCount := by
  induction s generalizing start with
  | nil => rfl
  | leaf name slot rest ih => simp only [offsetsFrom, fieldCount, List.length_cons, ih]
  | group name inner rest _ ih => simp only [offsetsFrom, fieldCount, List.length_cons, ih]

theorem length_fieldInfos (s : Schema) (index : Nat) :
    (s.fieldInfos index).length = s.fieldCount := by
  induction s generalizing index with
  | nil => rfl
  | leaf name slot rest ih => simp only [fieldInfos, fieldCount, List.length_cons, ih]
  | group name inner rest _ ih => simp only [fieldInfos, fieldCount, List.length_cons, ih]

/-- The windows of the outermost fields: each has its declared size at its offset. -/
def windows (s : Schema) : List Window :=
  List.zipWith Window.mk s.offsets ((s.fieldInfos 0).map FieldInfo.byteLen)

theorem length_windows (s : Schema) : s.windows.length = s.fieldCount := by
  simp only [windows, offsets, List.length_zipWith, List.length_map, length_offsetsFrom,
    length_fieldInfos, Nat.min_self]

theorem tiles_offsetsFrom (s : Schema) (start index : Nat) :
    Window.Tiles start (start + s.byteLen)
      (List.zipWith Window.mk (s.offsetsFrom start)
        ((s.fieldInfos index).map FieldInfo.byteLen)) := by
  induction s generalizing start index with
  | nil => rfl
  | leaf name slot rest ih =>
    have tail := ih (start + slot.byteLen) (index + 1)
    rw [Nat.add_assoc] at tail
    exact ⟨rfl, tail⟩
  | group name inner rest _ ih =>
    have tail := ih (start + inner.byteLen) (index + 1)
    rw [Nat.add_assoc] at tail
    exact ⟨rfl, tail⟩

theorem tiles_windows (s : Schema) : Window.Tiles 0 s.byteLen s.windows := by
  have tiles := s.tiles_offsetsFrom 0 0
  rwa [Nat.zero_add] at tiles

def append : Schema → Schema → Schema
  | nil, t => t
  | leaf name slot rest, t => leaf name slot (rest.append t)
  | group name inner rest, t => group name inner (rest.append t)

def Record.append : {s t : Schema} → s.Record → t.Record → (s.append t).Record
  | nil, _, _, q => q
  | leaf _ _ _, _, r, q => (r.1, append r.2 q)
  | group _ _ _, _, r, q => (r.1, append r.2 q)

/-- One nested record, anywhere in the schema, gives way to the list of its own fields. -/
inductive Unnesting : Schema → Schema → Type where
  | here (name inner rest) : Unnesting (group name inner rest) (inner.append rest)
  | next (name slot) {rest rest'} (u : Unnesting rest rest') :
      Unnesting (leaf name slot rest) (leaf name slot rest')
  | inside (name rest) {inner inner'} (u : Unnesting inner inner') :
      Unnesting (group name inner rest) (group name inner' rest)
  | behind (name inner) {rest rest'} (u : Unnesting rest rest') :
      Unnesting (group name inner rest) (group name inner rest')

namespace Unnesting

/-- The same values in the new schema. -/
def convert : {s t : Schema} → Unnesting s t → s.Record → t.Record
  | _, _, here _ _ _, r => Record.append r.1 r.2
  | _, _, next _ _ u, r => (r.1, u.convert r.2)
  | _, _, inside _ _ u, r => (u.convert r.1, r.2)
  | _, _, behind _ _ u, r => (r.1, u.convert r.2)

end Unnesting

theorem byteLen_append (s t : Schema) : (s.append t).byteLen = s.byteLen + t.byteLen := by
  induction s with
  | nil => simp only [append, byteLen, Nat.zero_add]
  | leaf name slot rest ih => simp only [append, byteLen, ih, Nat.add_assoc]
  | group name inner rest _ ih => simp only [append, byteLen, ih, Nat.add_assoc]

namespace Record

theorem bytes_append {s t : Schema} (r : s.Record) (q : t.Record) :
    bytes (s.append t) (append r q) = bytes s r ++ bytes t q := by
  induction s with
  | nil => rfl
  | leaf name slot rest ih =>
    rw [bytes_leaf, List.append_assoc, ← ih r.2]
    exact bytes_leaf name slot (rest.append t) (r.1, append r.2 q)
  | group name inner rest _ ih =>
    rw [bytes_group, List.append_assoc, ← ih r.2]
    exact bytes_group name inner (rest.append t) (r.1, append r.2 q)

theorem leaves_append {s t : Schema} (r : s.Record) (q : t.Record) :
    leaves (s.append t) (append r q) = leaves s r ++ leaves t q := by
  induction s with
  | nil => rfl
  | leaf name slot rest ih =>
    rw [leaves, List.cons_append, ← ih r.2]
    rfl
  | group name inner rest _ ih =>
    rw [leaves, List.append_assoc, ← ih r.2]
    rfl

end Record

namespace Unnesting

theorem byteLen_eq {s t : Schema} (u : Unnesting s t) : t.byteLen = s.byteLen := by
  induction u with
  | here name inner rest => exact byteLen_append inner rest
  | next name slot u ih => simp only [byteLen, ih]
  | inside name rest u ih => simp only [byteLen, ih]
  | behind name inner u ih => simp only [byteLen, ih]

theorem leaves_convert {s t : Schema} (u : Unnesting s t) (r : s.Record) :
    Record.leaves t (u.convert r) = Record.leaves s r := by
  induction u with
  | here name inner rest => exact Record.leaves_append r.1 r.2
  | next name slot u ih => exact congrArg (r.1.val :: ·) (ih r.2)
  | @inside name rest _ _ u ih => exact congrArg (· ++ Record.leaves rest r.2) (ih r.1)
  | behind name inner u ih => exact congrArg (Record.leaves inner r.1 ++ ·) (ih r.2)

theorem bytes_convert {s t : Schema} (u : Unnesting s t) (r : s.Record) :
    Record.bytes t (u.convert r) = Record.bytes s r := by
  induction u with
  | here name inner rest =>
    rw [Record.bytes_group]
    exact Record.bytes_append r.1 r.2
  | next name slot u ih =>
    rw [Record.bytes_leaf, Record.bytes_leaf, ← ih r.2]
    rfl
  | inside name rest u ih =>
    rw [Record.bytes_group, Record.bytes_group, ← ih r.1]
    rfl
  | behind name inner u ih =>
    rw [Record.bytes_group, Record.bytes_group, ← ih r.2]
    rfl

end Unnesting

end Schema

namespace RecordType

def unnest (R : RecordType) {t : Schema} (u : Schema.Unnesting R.fields t) : RecordType where
  fields := t
  initial := u.convert R.initial

theorem writeAt_eq (R : RecordType) (v : R.Value) {base : Nat} {buf : Bytes}
    (h : base + R.byteLen ≤ buf.length) :
    R.fields.writeAt R.fields.offsets v base buf =
      buf.take base ++ Schema.Record.bytes R.fields v ++ buf.drop (base + R.byteLen) := by
  rw [byteLen] at h
  rw [Schema.offsets, Schema.writeAt_eq R.fields v (by omega), Nat.add_zero, Bytes.overwrite,
    Schema.Record.length_bytes, byteLen]

/-- The windows of the fields lie back to back from 0 up to the size of the record. Writing the
fields in place, at any position of any buffer that has room, puts the bytes of the primitive fields
there, depth first in declaration order, and leaves all others alone. Giving a nested record's place
to its own fields changes neither the size nor the bytes. -/
theorem writeAt_concatenates (R : RecordType) :
    (R.fields.windows.length = R.fields.fieldCount ∧
      Window.Tiles 0 R.byteLen R.fields.windows ∧
      R.fields.windows.Pairwise Window.Apart ∧
      R.fields.windows.IsChain (fun v w => w.start = v.stop) ∧
      ∀ q, (∃ w ∈ R.fields.windows, q ∈ w) ↔ q < R.byteLen) ∧
    (∀ (v : R.Value) (base : Nat) (buf : Bytes), base + R.byteLen ≤ buf.length →
      R.fields.writeAt R.fields.offsets v base buf =
        buf.take base ++ (Schema.Place.all R.fields).flatMap (fun p => p.slot.encode (p.get v)) ++
          buf.drop (base + R.byteLen)) ∧
    ∀ {t : Schema} (u : Schema.Unnesting R.fields t) (v : R.Value),
      Schema.Record.leaves t (u.convert v) = Schema.Record.leaves R.fields v ∧
        (R.unnest u).byteLen = R.byteLen ∧ (R.unnest u).toBytes (u.convert v) = R.toBytes v := by
  have tiles : Window.Tiles 0 R.byteLen R.fields.windows := R.fields.tiles_windows
  refine ⟨⟨R.fields.length_windows, tiles, tiles.apart, tiles.consecutive, ?_⟩, ?_, ?_⟩
  · intro q
    rw [tiles.covers q]
    omega
  · intro v base buf h
    exact R.writeAt_eq v h
  · intro t u v
    refine ⟨u.leaves_convert v, u.byteLen_eq, ?_⟩
    calc (R.unnest u).toBytes (u.convert v)
      _ = Schema.Record.bytes t (u.convert v) := (R.unnest u).toBytes_eq (u.convert v)
      _ = Schema.Record.bytes R.fields v := u.bytes_convert v
      _ = R.toBytes v := (R.toBytes_eq v).symm

/-- A segment in the middle of a longer buffer. -/
theorem writeAt_concatenates_segment :
    let v : Samples.segment.Value :=
      (Scalar.ofBits _ 7, (Scalar.ofBits _ 258, Scalar.ofBits _ 65535, ()),
        (Scalar.ofBits _ 3, Scalar.ofBits _ 4, ()), Scalar.ofBits _ 5, ())
    let buf : Bytes := List.replicate 15 170
    1 + Samples.segment.byteLen ≤ buf.length ∧
      Samples.segment.fields.writeAt Samples.segment.fields.offsets v 1 buf =
        [170, 7, 1, 2, 255, 255, 0, 3, 0, 4, 5, 0, 0, 0, 170] := by
  intro v buf
  have room : 1 + Samples.segment.byteLen ≤ buf.length := by decide
  refine ⟨room, ?_⟩
  rw [(writeAt_concatenates Samples.segment).2.1 v 1 buf room]
  decide

theorem writeAt_front (R : RecordType) (v : R.Value) {buf : Bytes} (h : R.byteLen ≤ buf.length) :
    R.fields.writeAt R.fields.offsets v 0 buf = R.toBytes v ++ buf.drop R.byteLen := by
  rw [R.writeAt_eq v (by omega), toBytes_eq, List.take_zero, List.nil_append, Nat.zero_add]

/-- A buffer that is too short is refused by every way to write into it and stays as it is. Any
other buffer starts with the record's bytes afterwards, whatever stood there before, and keeps the
rest. -/
theorem encoders_agree (R : RecordType) (v : R.Value) (buf : Bytes) :
    (R.write v buf =
      if buf.length < R.byteLen then (.error (.bufferSize "encode" R.byteLen buf.length), buf)
      else (.ok (), R.toBytes v ++ buf.drop R.byteLen)) ∧
    (R.encode v buf =
      if buf.length < R.byteLen then .error (.bufferSize "encode" R.byteLen buf.length)
      else .ok (R.toBytes v ++ buf.drop R.byteLen)) ∧
    (R.tryEncode v buf =
      if buf.length < R.byteLen then (.error .bufferTooSmall, buf)
      else (.ok R.byteLen, R.toBytes v ++ buf.drop R.byteLen)) ∧
    (R.toFixed v).val = R.toBytes v := by
  by_cases short : buf.length < R.byteLen
  · simp only [write, encode, tryEncode, short, if_true, true_and]
    rfl
  · have front := R.writeAt_front v (Nat.not_lt.mp short)
    simp only [write, encode, tryEncode, short, if_false, front, true_and]
    rfl

end RecordType

end WireRecords
