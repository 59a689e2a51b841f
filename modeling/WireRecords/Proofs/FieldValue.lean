import WireRecords.Proofs.Description
import WireRecords.Proofs.Leafwise
import Mathlib.Data.List.Induction

/-!
# Reading a field through the layout

The layout of a record type finds every primitive field by its dotted path, provided that the keys
on every level are distinct and hold no point, and the bits it reads there are the bit pattern of
the decoded field. Of a truth value it gives the raw byte, of which decoding keeps only whether it
is zero.
-/

namespace WireRecords

namespace Layout

theorem toNat_shift_or (value : UInt64) (b : UInt8) :
    ((value <<< 8) ||| b.toUInt64).toNat = (value.toNat * 256 + b.toNat) % 2 ^ 64 := by
  have hb : b.toNat < 2 ^ 8 := b.toNat_lt
  have high : value.toNat <<< 8 % 2 ^ 64 = (value.toNat % 2 ^ 56) <<< 8 := by
    simp only [Nat.shiftLeft_eq]
    omega
  have shift : (8 : UInt64).toNat % 64 = 8 := rfl
  rw [UInt64.toNat_or, UInt64.toNat_shiftLeft, UInt8.toNat_toUInt64, shift, high,
    ← Nat.shiftLeft_add_eq_or_of_lt hb, Nat.shiftLeft_eq]
  omega

theorem toNat_readBits (order : ByteOrder) (bs : Bytes) :
    (readBits order bs).toNat =
      (if order = .big then Endian.big.decode bs else Endian.little.decode bs) % 2 ^ 64 := by
  have fold (bs : Bytes) :
      (bs.foldl (fun (value : UInt64) b => (value <<< 8) ||| b.toUInt64) 0).toNat =
        Bytes.ofLittleEndian bs.reverse % 2 ^ 64 := by
    -- by the last byte, which is shifted in last
    induction bs using List.reverseRecOn with
    | nil => rfl
    | append_singleton bs b ih =>
      rw [List.foldl_append, List.foldl_cons, List.foldl_nil, toNat_shift_or, ih,
        List.reverse_append, List.reverse_singleton, List.singleton_append, Bytes.ofLittleEndian]
      omega
  rw [readBits]
  split
  · rw [fold, Endian.decode_big]
  · rw [fold, List.reverse_reverse, Endian.decode_little]

end Layout

namespace Slot

/-- The number that stands in a field's window. -/
def number : Slot → Bytes → Nat
  | single _ _, bs => (bs.headD 0).toNat
  | ordered _ e _, bs => e.decode bs

theorem decode_eq_ofBits (s : Slot) (bs : Bytes) :
    s.decode bs = Scalar.ofBits s.type (s.number bs) := by
  cases s with
  | single t h => rfl
  | ordered t e h => exact decode_ordered e h bs

theorem number_singleton (s : Slot) (x : UInt8) : s.number [x] = x.toNat := by
  cases s with
  | single t hw => rfl
  | ordered t e hw =>
    cases e <;> simp [number, Endian.decode_big, Endian.decode_little, Bytes.ofLittleEndian]

theorem number_lt {s : Slot} {bs : Bytes} (h : bs.length = s.byteLen) :
    s.number bs < 256 ^ s.type.byteLen := by
  cases s with
  | single t hw =>
    rw [type, Primitive.byteLen_of_width hw]
    exact (bs.headD 0).toNat_lt
  | ordered t e hw =>
    rw [← show bs.length = (ordered t e hw).type.byteLen from h]
    exact e.decode_lt bs

theorem toNat_readBits_order {s : Slot} {bs : Bytes} (h : bs.length = s.byteLen) :
    (Layout.readBits s.order bs).toNat = s.number bs := by
  have small := (number_lt h).trans_le s.type.pow_byteLen_le
  rw [Layout.toNat_readBits]
  cases s with
  | single t hw =>
    obtain ⟨x, rfl⟩ := List.length_eq_one_iff.mp (h.trans (Primitive.byteLen_of_width hw))
    have byte : Endian.little.decode [x] = (single t hw).number [x] := by
      simp [Endian.decode_little, Bytes.ofLittleEndian, number_singleton]
    rw [← byte] at small ⊢
    exact Nat.mod_eq_of_lt small
  | ordered t e hw => cases e <;> exact Nat.mod_eq_of_lt small

theorem toBits_decode {s : Slot} (hs : s.type ≠ .boolean) {bs : Bytes} (h : bs.length = s.byteLen) :
    (s.decode bs).toBits = s.number bs := by
  rw [decode_eq_ofBits]
  exact Scalar.toBits_ofBits hs (number_lt h)

theorem val_decode_boolean {s : Slot} (hs : s.type = .boolean) (x : UInt8) :
    (s.decode [x]).val = 1 ↔ x ≠ 0 := by
  have hx : x.toNat % 256 = x.toNat := Nat.mod_eq_of_lt x.toNat_lt
  have zero : x.toNat = 0 ↔ x = 0 := ⟨fun h => UInt8.toNat.inj h, fun h => h ▸ rfl⟩
  rw [decode_eq_ofBits, number_singleton, hs]
  simp only [Scalar.ofBits, Primitive.valueOfBits, hx, zero]
  split <;> simp_all

end Slot

namespace Schema

theorem resolve?_keysFrom {s : Schema} {index : Nat} (h : s.DistinctFrom index) (start : Nat)
    (p : Place s) :
    ∃ key, (s.describe index start).resolve? (p.keysFrom index) =
      some (⟨key, .ofNat (start + p.offset), .ofNat p.slot.byteLen, p.slot.order,
        .ofPrimitive p.slot.type⟩, .nil) := by
  induction p generalizing index start with
  | @here name slot rest => exact ⟨fieldKey name index, if_pos rfl⟩
  | @next name slot rest p ih =>
    obtain ⟨key, keys, path, first⟩ := p.keysFrom_eq_cons (index + 1)
    -- the first key on the way belongs to a later field, so the lookup passes this one over
    have other : fieldKey name index ≠ key := fun same =>
      h.not_mem_leaf (same ▸ List.mem_of_getElem? first)
    obtain ⟨last, found⟩ := ih h.rest_leaf (start + slot.byteLen)
    refine ⟨last, ?_⟩
    rw [Place.keysFrom, describe, path, FieldList.resolve?_cons_of_ne other, ← path, found,
      Place.offset, Place.slot, Nat.add_assoc]
  | @inside name inner rest p ih =>
    obtain ⟨key, keys, path, -⟩ := p.keysFrom_eq_cons 0
    have more : p.keysFrom 0 ≠ [] := path ▸ List.cons_ne_nil key keys
    obtain ⟨last, found⟩ := ih h.inner_group start
    exact ⟨last, (FieldList.resolve?_cons_self more _ _).trans found⟩
  | @behind name inner rest p ih =>
    obtain ⟨key, keys, path, first⟩ := p.keysFrom_eq_cons (index + 1)
    have other : fieldKey name index ≠ key := fun same =>
      h.not_mem_group (same ▸ List.mem_of_getElem? first)
    obtain ⟨last, found⟩ := ih h.rest_group (start + inner.byteLen)
    refine ⟨last, ?_⟩
    rw [Place.keysFrom, describe, path, FieldList.resolve?_cons_of_ne other, ← path, found,
      Place.offset, Place.slot, Nat.add_assoc]

def Place.path {s : Schema} (p : Place s) : String := ".".intercalate p.keys

theorem Place.split_path {s : Schema} (h : s.PlainKeys) (p : Place s) :
    Text.split '.' p.path = p.keys := by
  obtain ⟨key, keys, path, -⟩ := p.keysFrom_eq_cons 0
  have more : p.keys ≠ [] := by
    rw [Place.keys, path]
    exact List.cons_ne_nil key keys
  exact Text.split_intercalate (fun _ => free_of_mem_keys h) more

end Schema

namespace RecordType

/-- In an encoded record the layout finds each primitive field under its dotted path, and reads what
the codec reads: the bit pattern of the decoded field, or the raw byte of a truth value. -/
theorem value_path (R : RecordType) (fits : R.Addressable) (distinct : R.fields.DistinctKeys)
    (plain : R.fields.PlainKeys) (name : String) (p : Schema.Place R.fields) (b : Bytes)
    (long : R.byteLen ≤ b.length) :
    ∃ v word, R.decode b = .ok v ∧ (R.layout name).value p.path b = .ok word ∧
      (p.slot.type ≠ .boolean → word.toNat = (p.get v).toBits) ∧
      (p.slot.type = .boolean → ∃ x, b[p.offset]? = some x ∧ word = x.toUInt64 ∧
        ((p.get v).val = 1 ↔ x ≠ 0)) := by
  have size := toNat_size_layout fits name
  have stop : p.offset + p.slot.byteLen ≤ R.byteLen := p.stop_le
  have addressable : R.byteLen < UInt64.size := fits
  have window := Bytes.length_window (stop.trans long)
  obtain ⟨key, found⟩ := Schema.resolve?_keysFrom (.of_distinctKeys distinct) 0 p
  rw [Nat.zero_add, ← Schema.Place.keys, ← p.split_path plain] at found
  have value := Layout.value_of_resolve? (l := R.layout name) found
    (Schema.isRecord_ofPrimitive _ _ _ _ _) b
  rw [size, if_neg (Nat.not_lt.mpr long), Schema.window_described (by omega)] at value
  have number := Slot.toNat_readBits_order window
  refine ⟨_, _, R.decode_eq long, value, ?_, ?_⟩
  · intro scalar
    rw [p.get_ofBytes, Slot.toBits_decode scalar window]
    exact number
  · intro truth
    have one := Slot.byteLen_boolean truth
    rw [one] at window number
    obtain ⟨x, byte⟩ := List.length_eq_one_iff.mp window
    have first := Bytes.getElem?_window b p.offset 1 0
    rw [byte] at first number
    rw [Slot.number_singleton] at number
    refine ⟨x, ?_, ?_, ?_⟩
    · simpa using first.symm
    · rw [one, byte, ← UInt64.toNat_inj, UInt8.toNat_toUInt64]
      exact number
    · rw [p.get_ofBytes, one, byte]
      exact Slot.val_decode_boolean truth x

/-- The checksum of a frame's header, in little byte order, and a truth value whose byte is 2. -/
theorem value_path_frame :
    let b : Bytes := [7, 1, 2, 3, 244, 245, 246, 247, 8, 9, 10, 11, 129, 2, 128, 1, 99, 99]
    let checksum : Schema.Place Samples.frame.fields := .next (.inside (.next (.next .here)))
    let urgent : Schema.Place Samples.frame.fields := .next (.behind (.next (.next .here)))
    let l := Samples.frame.layout "frame"
    Samples.frame.Addressable ∧ Samples.frame.fields.DistinctKeys ∧
      Samples.frame.fields.PlainKeys ∧ Samples.frame.byteLen ≤ b.length ∧
      checksum.path = "header.checksum" ∧ l.value checksum.path b = .ok 4160157172 ∧
      urgent.path = "urgent" ∧ l.value urgent.path b = .ok 2 ∧
      ∃ v, Samples.frame.decode b = .ok v ∧ (urgent.get v).val = 1 := by
  intro b checksum urgent l
  have fits : Samples.frame.Addressable := by decide
  have distinct : Samples.frame.fields.DistinctKeys := by decide
  have plain : Samples.frame.fields.PlainKeys := by decide
  have long : Samples.frame.byteLen ≤ b.length := by decide
  obtain ⟨v, word, decoded, value, bits, -⟩ :=
    value_path Samples.frame fits distinct plain "frame" checksum b long
  obtain ⟨v', word', decoded', value', -, truth⟩ :=
    value_path Samples.frame fits distinct plain "frame" urgent b long
  have known : word = 4160157172 := by
    rw [← UInt64.toNat_inj, bits (by decide), eq_ofBytes_of_decode decoded]
    decide
  obtain ⟨x, byte, raw, nonzero⟩ := truth rfl
  have two : x = 2 := Option.some.inj byte.symm
  subst known two raw
  exact ⟨fits, distinct, plain, long, by decide, value, by decide, value', v', decoded',
    nonzero.mpr (by decide)⟩

end RecordType

end WireRecords
