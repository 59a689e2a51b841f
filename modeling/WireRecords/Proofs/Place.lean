import WireRecords.Codec
import WireRecords.Proofs.Scalar
import WireRecords.Proofs.Window

/-!
# Places of primitive fields

A place leads to one primitive field of a schema, through any number of nested records. The places
in declaration order give a record's flat form: the bytes of its primitive fields, one after the
other. Each place has a window of its own there, and the windows tile the record. Walking the
offsets in a buffer, to write or to read, comes to the same as taking the flat form as a whole.
-/

namespace WireRecords.Schema

/-- A primitive field: the first one, one behind the first field, or one inside a nested record. -/
inductive Place : Schema → Type where
  | here {name slot rest} : Place (.leaf name slot rest)
  | next {name slot rest} (p : Place rest) : Place (.leaf name slot rest)
  | inside {name inner rest} (p : Place inner) : Place (.group name inner rest)
  | behind {name inner rest} (p : Place rest) : Place (.group name inner rest)

namespace Place

def slot : {s : Schema} → Place s → Slot
  | .leaf _ slot _, here => slot
  | .leaf _ _ _, next p => p.slot
  | .group _ _ _, inside p => p.slot
  | .group _ _ _, behind p => p.slot

def offset : {s : Schema} → Place s → Nat
  | .leaf _ _ _, here => 0
  | .leaf _ slot _, next p => slot.byteLen + p.offset
  | .group _ _ _, inside p => p.offset
  | .group _ inner _, behind p => inner.byteLen + p.offset

def get : {s : Schema} → (p : Place s) → s.Record → Scalar p.slot.type
  | .leaf _ _ _, here, r => r.1
  | .leaf _ _ _, next p, r => p.get r.2
  | .group _ _ _, inside p, r => p.get r.1
  | .group _ _ _, behind p, r => p.get r.2

def all : (s : Schema) → List (Place s)
  | .nil => []
  | .leaf _ _ rest => here :: (all rest).map next
  | .group _ inner rest => (all inner).map inside ++ (all rest).map behind

theorem mem_all {s : Schema} (p : Place s) : p ∈ all s := by
  induction p with
  | here => exact List.mem_cons_self
  | next p ih => exact List.mem_cons_of_mem _ (List.mem_map_of_mem ih)
  | inside p ih => exact List.mem_append_left _ (List.mem_map_of_mem ih)
  | behind p ih => exact List.mem_append_right _ (List.mem_map_of_mem ih)

/-- The place's own bytes, in a record that starts at `base`. -/
def windowAt {s : Schema} (base : Nat) (p : Place s) : Window := ⟨base + p.offset, p.slot.byteLen⟩

theorem windowAt_next {name : Option String} {slot : Slot} {rest : Schema} (base : Nat)
    (p : Place rest) :
    (next p : Place (.leaf name slot rest)).windowAt base = p.windowAt (base + slot.byteLen) := by
  simp only [windowAt, offset, Place.slot, Nat.add_assoc]

theorem windowAt_behind {name : Option String} {inner rest : Schema} (base : Nat)
    (p : Place rest) :
    (behind p : Place (.group name inner rest)).windowAt base =
      p.windowAt (base + inner.byteLen) := by
  simp only [windowAt, offset, slot, Nat.add_assoc]

theorem tiles_all (s : Schema) (base : Nat) :
    Window.Tiles base (base + s.byteLen) ((all s).map (windowAt base)) := by
  induction s generalizing base with
  | nil => rfl
  | leaf name slot rest ih =>
    have tail := ih (base + slot.byteLen)
    rw [Nat.add_assoc] at tail
    simp only [all, List.map_cons, List.map_map, Function.comp_def, windowAt_next]
    exact ⟨rfl, tail⟩
  | group name inner rest ih_inner ih_rest =>
    have tail := ih_rest (base + inner.byteLen)
    rw [Nat.add_assoc] at tail
    simp only [all, List.map_append, List.map_map, Function.comp_def, windowAt_behind]
    exact (ih_inner base).append tail

theorem exists_mem_windowAt {s : Schema} {base q : Nat} (hb : base ≤ q)
    (hq : q < base + s.byteLen) : ∃ p : Place s, q ∈ p.windowAt base := by
  obtain ⟨w, hw, hm⟩ := ((tiles_all s base).covers q).mpr ⟨hb, hq⟩
  obtain ⟨p, -, rfl⟩ := List.mem_map.mp hw
  exact ⟨p, hm⟩

theorem eq_of_mem_windowAt {s : Schema} {base q : Nat} {p p' : Place s}
    (h : q ∈ p.windowAt base) (h' : q ∈ p'.windowAt base) : p = p' := by
  by_contra hne
  have apart := List.pairwise_map.mp (tiles_all s base).apart
  have : Std.Symm fun v w : Place s => (v.windowAt base).Apart (w.windowAt base) :=
    ⟨fun _ _ hv => Std.Symm.symm _ _ hv⟩
  exact apart.forall p.mem_all p'.mem_all hne q h h'

theorem stop_le {s : Schema} (p : Place s) : p.offset + p.slot.byteLen ≤ s.byteLen := by
  induction p with
  | here => simp only [offset, slot, byteLen]; omega
  | next p ih => simp only [offset, slot, byteLen]; omega
  | inside p ih => simp only [offset, slot, byteLen]; omega
  | behind p ih => simp only [offset, slot, byteLen]; omega

end Place

namespace Record

/-- The flat form of a record: the bytes of its primitive fields in declaration order. -/
def bytes (s : Schema) (r : s.Record) : Bytes :=
  (Place.all s).flatMap fun p => p.slot.encode (p.get r)

def ofBytes : (s : Schema) → Bytes → s.Record
  | nil, _ => ()
  | leaf _ slot rest, bs =>
    (slot.decode (bs.take slot.byteLen), ofBytes rest (bs.drop slot.byteLen))
  | group _ inner rest, bs => (ofBytes inner bs, ofBytes rest (bs.drop inner.byteLen))

theorem bytes_leaf (name : Option String) (slot : Slot) (rest : Schema)
    (r : (leaf name slot rest).Record) :
    bytes (leaf name slot rest) r = slot.encode r.1 ++ bytes rest r.2 := by
  simp only [bytes, Place.all, List.flatMap_cons, List.flatMap_map]
  rfl

theorem bytes_group (name : Option String) (inner rest : Schema)
    (r : (group name inner rest).Record) :
    bytes (group name inner rest) r = bytes inner r.1 ++ bytes rest r.2 := by
  simp only [bytes, Place.all, List.flatMap_append, List.flatMap_map]
  rfl

@[simp] theorem length_bytes (s : Schema) (r : s.Record) : (bytes s r).length = s.byteLen := by
  induction s with
  | nil => rfl
  | leaf name slot rest ih =>
    rw [bytes_leaf, List.length_append, Slot.length_encode, ih, byteLen]
  | group name inner rest ih_inner ih_rest =>
    rw [bytes_group, List.length_append, ih_inner, ih_rest, byteLen]

theorem ofBytes_bytes (s : Schema) (r : s.Record) (t : Bytes) : ofBytes s (bytes s r ++ t) = r := by
  induction s generalizing t with
  | nil => rfl
  | leaf name slot rest ih =>
    have len : (slot.encode r.1).length = slot.byteLen := slot.length_encode r.1
    rw [bytes_leaf, List.append_assoc, ofBytes, List.take_left' len, List.drop_left' len,
      slot.decode_encode, ih]
    rfl
  | group name inner rest ih_inner ih_rest =>
    have len : (bytes inner r.1).length = inner.byteLen := length_bytes inner r.1
    rw [bytes_group, List.append_assoc, ofBytes, ih_inner, List.drop_left' len, ih_rest]
    rfl

theorem ext_get {s : Schema} {r r' : s.Record} (h : ∀ p : Place s, p.get r = p.get r') :
    r = r' := by
  induction s with
  | nil => rfl
  | leaf name slot rest ih =>
    have tail : r.2 = r'.2 := ih fun p => h (.next p)
    exact Prod.ext (h .here) tail
  | group name inner rest ih_inner ih_rest =>
    have head : r.1 = r'.1 := ih_inner fun p => h (.inside p)
    have tail : r.2 = r'.2 := ih_rest fun p => h (.behind p)
    exact Prod.ext head tail

theorem bytes_injective (s : Schema) : Function.Injective (bytes s) := by
  intro r r' h
  rw [← ofBytes_bytes s r [], h, ofBytes_bytes]

end Record

namespace Place

theorem window_bytes {s : Schema} (p : Place s) (r : s.Record) :
    Bytes.window (Record.bytes s r) p.offset p.slot.byteLen = p.slot.encode (p.get r) := by
  induction p with
  | @here name slot rest =>
    have len : (slot.encode r.1).length = slot.byteLen := slot.length_encode r.1
    rw [Record.bytes_leaf]
    exact len ▸ Bytes.window_append_front (slot.encode r.1) (Record.bytes rest r.2)
  | @next name slot rest p ih =>
    have len : (slot.encode r.1).length = slot.byteLen := slot.length_encode r.1
    rw [Record.bytes_leaf, offset, ← len, Bytes.window_append_right]
    exact ih r.2
  | @inside name inner rest p ih =>
    have fits : p.offset + p.slot.byteLen ≤ (Record.bytes inner r.1).length := by
      rw [Record.length_bytes]
      exact p.stop_le
    rw [Record.bytes_group]
    exact (Bytes.window_append_left fits _).trans (ih r.1)
  | @behind name inner rest p ih =>
    rw [Record.bytes_group, offset, ← Record.length_bytes inner r.1, Bytes.window_append_right]
    exact ih r.2

theorem get_ofBytes {s : Schema} (p : Place s) (bs : Bytes) :
    p.get (Record.ofBytes s bs) = p.slot.decode (Bytes.window bs p.offset p.slot.byteLen) := by
  induction p generalizing bs with
  | here => rfl
  | @next name slot rest p ih =>
    rw [offset, ← Bytes.window_drop]
    exact ih (bs.drop slot.byteLen)
  | inside p ih => exact ih bs
  | @behind name inner rest p ih =>
    rw [offset, ← Bytes.window_drop]
    exact ih (bs.drop inner.byteLen)

end Place

/-- Writing the fields one by one, nested records in their own windows, is one write of the flat
form: every write lands right behind the one before it. -/
theorem writeAt_eq (s : Schema) (r : s.Record) {start base : Nat} {buf : Bytes}
    (h : base + start + s.byteLen ≤ buf.length) :
    s.writeAt (s.offsetsFrom start) r base buf =
      Bytes.overwrite buf (base + start) (Record.bytes s r) := by
  induction s generalizing start base buf with
  | nil => simp [writeAt, Record.bytes, Place.all, Bytes.overwrite]
  | leaf name slot rest ih =>
    have len : (slot.encode r.1).length = slot.byteLen := slot.length_encode r.1
    rw [byteLen] at h
    have keep : (Bytes.overwrite buf (base + start) (slot.encode r.1)).length = buf.length :=
      Bytes.length_overwrite (by omega)
    rw [offsetsFrom, writeAt, ih r.2 (by omega), Record.bytes_leaf, ← Nat.add_assoc, ← len,
      Bytes.overwrite_append (by omega)]
  | group name inner rest ih_inner ih_rest =>
    have len := Record.length_bytes inner r.1
    rw [byteLen] at h
    have keep : (Bytes.overwrite buf (base + start) (Record.bytes inner r.1)).length =
        buf.length := Bytes.length_overwrite (by omega)
    rw [offsetsFrom, writeAt, offsets, ih_inner r.1 (by omega), Nat.add_zero,
      ih_rest r.2 (by omega), Record.bytes_group, ← Nat.add_assoc, ← len,
      Bytes.overwrite_append (by omega)]

theorem readAt_eq (s : Schema) (r : s.Record) (start base : Nat) (buf : Bytes) :
    s.readAt (s.offsetsFrom start) r base buf = Record.ofBytes s (buf.drop (base + start)) := by
  induction s generalizing start base with
  | nil => rfl
  | leaf name slot rest ih =>
    rw [offsetsFrom, readAt, ih, Record.ofBytes, List.drop_drop, ← Nat.add_assoc, Bytes.window]
  | group name inner rest ih_inner ih_rest =>
    rw [offsetsFrom, readAt, offsets, ih_inner, ih_rest, Record.ofBytes, List.drop_drop,
      ← Nat.add_assoc, Nat.add_zero]

end WireRecords.Schema

namespace WireRecords.RecordType

theorem toBytes_eq (R : RecordType) (v : R.Value) :
    R.toBytes v = Schema.Record.bytes R.fields v := by
  have fits : 0 + 0 + R.fields.byteLen ≤ (List.replicate R.byteLen (0 : UInt8)).length := by
    simp [byteLen]
  rw [toBytes, Schema.offsets, Schema.writeAt_eq R.fields v fits, Bytes.overwrite,
    List.drop_eq_nil_of_le (by simp [byteLen])]
  simp

@[simp] theorem length_toBytes (R : RecordType) (v : R.Value) :
    (R.toBytes v).length = R.byteLen := by
  rw [toBytes_eq, Schema.Record.length_bytes, byteLen]

theorem decode_eq (R : RecordType) {buf : Bytes} (h : R.byteLen ≤ buf.length) :
    R.decode buf = .ok (Schema.Record.ofBytes R.fields buf) := by
  rw [decode, if_neg (Nat.not_lt.mpr h), Schema.offsets, Schema.readAt_eq]
  rfl

end WireRecords.RecordType
