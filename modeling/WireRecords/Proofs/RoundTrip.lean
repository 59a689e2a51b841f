import WireRecords.Proofs.Place
import WireRecords.Samples

/-!
# Round trips

Decoding undoes encoding, for every record type and whatever follows the encoded record. The other
way round a buffer comes back up to the bytes of its truth values, which come back as 0 or 1: this
canonical form is all that decoding keeps of a buffer.
-/

namespace WireRecords

namespace RecordType

/-- Every record is decoded from its bytes, with any bytes behind them, and no two records have the
same bytes. -/
theorem decode_toBytes_append (R : RecordType) :
    (∀ (v : R.Value) (t : Bytes), R.decode (R.toBytes v ++ t) = .ok v) ∧
      Function.Injective R.toBytes := by
  constructor
  · intro v t
    have long : R.byteLen ≤ (R.toBytes v ++ t).length := by
      rw [List.length_append, length_toBytes]
      omega
    rw [R.decode_eq long, R.toBytes_eq v, Schema.Record.ofBytes_bytes]
  · intro v w h
    rw [toBytes_eq, toBytes_eq] at h
    exact Schema.Record.bytes_injective R.fields h

end RecordType

namespace Schema

/-- The position is the one byte of a truth value. -/
def HoldsTruth (s : Schema) (q : Nat) : Prop :=
  ∃ p : Place s, p.slot.type = .boolean ∧ p.offset = q

instance (s : Schema) (q : Nat) : Decidable (s.HoldsTruth q) :=
  decidable_of_iff (∃ p ∈ Place.all s, p.slot.type = .boolean ∧ p.offset = q)
    (by simp only [HoldsTruth, Place.mem_all, true_and])

theorem holdsTruth_iff {s : Schema} {q : Nat} {p : Place s} (hq : q ∈ p.windowAt 0) :
    s.HoldsTruth q ↔ p.slot.type = .boolean := by
  constructor
  · rintro ⟨p', hb, rfl⟩
    have own : p'.offset ∈ p'.windowAt 0 := by
      have := p'.slot.byteLen_pos
      rw [Window.mem_iff]
      simp only [Place.windowAt]
      omega
    exact Place.eq_of_mem_windowAt own hq ▸ hb
  · intro hb
    have one := Slot.byteLen_boolean hb
    rw [Window.mem_iff] at hq
    simp only [Place.windowAt] at hq
    exact ⟨p, hb, by omega⟩

/-- Reading a record and writing it again changes the bytes of truth values and no others. -/
theorem Record.bytes_ofBytes {s : Schema} {buf : Bytes} (h : s.byteLen ≤ buf.length) :
    Record.bytes s (Record.ofBytes s buf) =
      (buf.take s.byteLen).mapIdx fun q x => if s.HoldsTruth q then truthByte x else x := by
  apply List.ext_getElem?
  intro q
  by_cases hq : q < s.byteLen
  · -- the one place that owns the position decides what stands there
    obtain ⟨p, hp⟩ := Place.exists_mem_windowAt (Nat.zero_le q) (by omega : q < 0 + s.byteLen)
    have inside := Window.mem_iff.mp hp
    simp only [Place.windowAt, Nat.zero_add] at inside
    have within : q - p.offset < p.slot.byteLen := by omega
    have split : p.offset + (q - p.offset) = q := by omega
    have fits : p.offset + p.slot.byteLen ≤ buf.length := p.stop_le.trans h
    have owned (bs : Bytes) :
        bs[q]? = (Bytes.window bs p.offset p.slot.byteLen)[q - p.offset]? := by
      rw [Bytes.getElem?_window, if_pos within, split]
    rw [owned, p.window_bytes, p.get_ofBytes, p.slot.encode_decode_map (Bytes.length_window fits),
      List.getElem?_map, ← owned, List.getElem?_mapIdx, List.getElem?_take_of_lt hq]
    simp only [holdsTruth_iff hp]
  · rw [List.getElem?_eq_none (by simp; omega), List.getElem?_eq_none (by simp; omega)]

end Schema

namespace RecordType

/-- The front of a buffer, as long as a record, with every byte of a truth value made 0 or 1. -/
def canonical (R : RecordType) (buf : Bytes) : Bytes :=
  (buf.take R.byteLen).mapIdx fun q x => if R.fields.HoldsTruth q then truthByte x else x

/-- Decodes a buffer and encodes the record again. -/
def reencode (R : RecordType) (buf : Bytes) : Except CodecError Bytes :=
  (R.decode buf).map R.toBytes

variable {R : RecordType} {buf : Bytes}

theorem toBytes_ofBytes (h : R.byteLen ≤ buf.length) :
    R.toBytes (Schema.Record.ofBytes R.fields buf) = R.canonical buf := by
  rw [toBytes_eq, Schema.Record.bytes_ofBytes h, canonical, byteLen]

theorem reencode_eq (h : R.byteLen ≤ buf.length) : R.reencode buf = .ok (R.canonical buf) := by
  rw [reencode, R.decode_eq h, Except.map, toBytes_ofBytes h]

theorem length_canonical (h : R.byteLen ≤ buf.length) :
    (R.canonical buf).length = R.byteLen := by
  rw [← toBytes_ofBytes h, length_toBytes]

theorem ofBytes_canonical (h : R.byteLen ≤ buf.length) :
    Schema.Record.ofBytes R.fields (R.canonical buf) = Schema.Record.ofBytes R.fields buf := by
  rw [← toBytes_ofBytes h, toBytes_eq]
  simpa using Schema.Record.ofBytes_bytes R.fields (Schema.Record.ofBytes R.fields buf) []

theorem canonical_canonical (h : R.byteLen ≤ buf.length) :
    R.canonical (R.canonical buf) = R.canonical buf := by
  have long : R.byteLen ≤ (R.canonical buf).length := (length_canonical h).ge
  rw [← toBytes_ofBytes long, ofBytes_canonical h, toBytes_ofBytes h]

theorem canonical_eq_take_iff (h : R.byteLen ≤ buf.length) :
    R.canonical buf = buf.take R.byteLen ↔
      ∀ p : Schema.Place R.fields, p.slot.type = .boolean →
        buf[p.offset]? = some 0 ∨ buf[p.offset]? = some 1 := by
  have entry (q : Nat) (hq : q < R.byteLen) : (R.canonical buf)[q]? =
      buf[q]?.map fun x => if R.fields.HoldsTruth q then truthByte x else x := by
    rw [canonical, List.getElem?_mapIdx, List.getElem?_take_of_lt hq]
  constructor
  · intro heq p hb
    have hq : p.offset < R.byteLen := by
      have := p.stop_le
      have := p.slot.byteLen_pos
      simp only [byteLen]
      omega
    have truth : R.fields.HoldsTruth p.offset := ⟨p, hb, rfl⟩
    have same := entry p.offset hq
    rw [heq, List.getElem?_take_of_lt hq, List.getElem?_eq_getElem (by omega)] at same
    simp only [Option.map_some, Option.some.injEq, truth, if_true] at same
    rw [List.getElem?_eq_getElem (by omega), same]
    simp only [truthByte]
    split <;> simp
  · intro hall
    apply List.ext_getElem?
    intro q
    by_cases hq : q < R.byteLen
    · rw [entry q hq, List.getElem?_take_of_lt hq]
      by_cases truth : R.fields.HoldsTruth q
      · obtain ⟨p, hb, rfl⟩ := id truth
        rcases hall p hb with hz | ho
        · simp [hz, truthByte]
        · simp [ho, truthByte]
      · simp [truth]
    · rw [List.getElem?_eq_none (by rw [length_canonical h]; omega),
        List.getElem?_eq_none (by simp; omega)]

theorem ofBytes_eq_iff {c : Bytes} (hb : R.byteLen ≤ buf.length) (hc : R.byteLen ≤ c.length) :
    Schema.Record.ofBytes R.fields buf = Schema.Record.ofBytes R.fields c ↔
      R.canonical buf = R.canonical c := by
  rw [← toBytes_ofBytes hb, ← toBytes_ofBytes hc, toBytes_eq, toBytes_eq]
  exact (Schema.Record.bytes_injective R.fields).eq_iff.symm

/-- Encoding what was decoded makes every byte of a truth value 0 or 1 and changes nothing else, so
canonical buffers are the ones that come back, doing it twice does no more than once, and the
canonical form tells exactly the decoded records apart. -/
theorem reencode_canonical (R : RecordType) {b c : Bytes} (hb : R.byteLen ≤ b.length)
    (hc : R.byteLen ≤ c.length) :
    R.reencode b = .ok (R.canonical b) ∧
      (R.reencode b = .ok (b.take R.byteLen) ↔
        ∀ p : Schema.Place R.fields, p.slot.type = .boolean →
          b[p.offset]? = some 0 ∨ b[p.offset]? = some 1) ∧
      (R.reencode b >>= R.reencode) = R.reencode b ∧
      (R.decode b = R.decode c ↔ R.canonical b = R.canonical c) := by
  have again : R.reencode (R.canonical b) = .ok (R.canonical b) := by
    rw [reencode_eq (length_canonical hb).ge, canonical_canonical hb]
  refine ⟨reencode_eq hb, ?_, ?_, ?_⟩
  · rw [reencode_eq hb, Except.ok.injEq]
    exact canonical_eq_take_iff hb
  · rw [reencode_eq hb]
    exact again
  · rw [R.decode_eq hb, R.decode_eq hc, Except.ok.injEq]
    exact ofBytes_eq_iff hb hc

/-- The truth value of `deep` stands two records down, at position 15. -/
theorem reencode_canonical_deep :
    let b : Bytes := List.replicate 20 2
    let c : Bytes := List.replicate 15 2 ++ [255] ++ List.replicate 3 2
    Samples.deep.byteLen ≤ b.length ∧ Samples.deep.byteLen ≤ c.length ∧
      Samples.deep.reencode b = .ok (List.replicate 15 2 ++ [1] ++ List.replicate 3 2) ∧
      Samples.deep.reencode b ≠ .ok (b.take 19) ∧
      Samples.deep.decode b = Samples.deep.decode c := by
  intro b c
  have hb : Samples.deep.byteLen ≤ b.length := by decide
  have hc : Samples.deep.byteLen ≤ c.length := by decide
  obtain ⟨again, -, -, same⟩ := reencode_canonical Samples.deep hb hc
  refine ⟨hb, hc, ?_, ?_, ?_⟩
  · rw [again]
    decide
  · rw [again]
    decide
  · exact same.mpr (by decide)

end RecordType

end WireRecords
