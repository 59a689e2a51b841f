import WireRecords.Proofs.Route
import WireRecords.Samples

/-!
# Decoding leaf by leaf

Decoding fails on a short buffer and on no other. Each primitive field of the result is what stands
in that field's own window, found by adding the offsets on the way down to it. Nothing else goes
into a record: no byte behind it, no byte of another field, no value that it had before.
-/

namespace WireRecords

namespace Schema

namespace Record

theorem ofBytes_eq_of_take {s : Schema} {b c : Bytes} (h : c.take s.byteLen = b.take s.byteLen) :
    ofBytes s c = ofBytes s b := by
  apply ext_get
  intro p
  have within := p.stop_le
  rw [p.get_ofBytes, p.get_ofBytes, ← Bytes.window_take within c, h, Bytes.window_take within b]

theorem get_ofBytes_set {s : Schema} {p : Place s} {q : Nat} (h : q ∉ p.windowAt 0) (b : Bytes)
    (x : UInt8) : p.get (ofBytes s (b.set q x)) = p.get (ofBytes s b) := by
  rw [Window.mem_iff] at h
  simp only [Place.windowAt, Nat.zero_add] at h
  have outside : q < p.offset ∨ p.offset + p.slot.byteLen ≤ q := by omega
  rw [p.get_ofBytes, p.get_ofBytes, Bytes.window_set outside]

end Record

end Schema

namespace RecordType

variable {R : RecordType} {b : Bytes}

theorem tryDecode_eq (h : R.byteLen ≤ b.length) :
    R.tryDecode b = .ok (Schema.Record.ofBytes R.fields b) := by
  rw [tryDecode, if_neg (Nat.not_lt.mpr h), Schema.offsets, Schema.readAt_eq]
  rfl

theorem decode_eq_error_iff :
    R.decode b = .error (.bufferSize "decode" R.byteLen b.length) ↔ b.length < R.byteLen := by
  rw [decode]
  split <;> simp [*]

theorem tryDecode_eq_error_iff : R.tryDecode b = .error .bufferTooSmall ↔ b.length < R.byteLen := by
  rw [tryDecode]
  split <;> simp [*]

theorem eq_ofBytes_of_decode {v : R.Value} (h : R.decode b = .ok v) :
    v = Schema.Record.ofBytes R.fields b := by
  by_cases short : b.length < R.byteLen
  · rw [decode, if_pos short] at h
    cases h
  · rw [R.decode_eq (Nat.not_lt.mp short)] at h
    exact (Except.ok.inj h).symm

/-- Both ways to decode refuse the buffers that are too short and no others. On a buffer that is
long enough they give the same record, in which every primitive field holds what its own window
says. So the bytes behind the record do not matter, one changed byte changes at most the field whose
window holds it, and nothing remains of the record that is read over. -/
theorem decode_leafwise (R : RecordType) (b : Bytes) :
    (R.decode b = .error (.bufferSize "decode" R.byteLen b.length) ↔ b.length < R.byteLen) ∧
    (R.tryDecode b = .error .bufferTooSmall ↔ b.length < R.byteLen) ∧
    (R.byteLen ≤ b.length → ∃ v, R.decode b = .ok v ∧ R.tryDecode b = .ok v ∧
      ∀ p : Schema.Place R.fields, ∃ os, Schema.Leads R.fields p.route os p.slot ∧
        p.get v = p.slot.decode (Bytes.window b os.sum p.slot.byteLen)) ∧
    (R.byteLen ≤ b.length → ∀ c : Bytes, c.take R.byteLen = b.take R.byteLen →
      R.decode c = R.decode b ∧ R.tryDecode c = R.tryDecode b) ∧
    (∀ (q : Nat) (x : UInt8) (v w : R.Value), R.decode b = .ok v → R.decode (b.set q x) = .ok w →
      ∀ p : Schema.Place R.fields, p.get w ≠ p.get v →
        q ∈ p.windowAt 0 ∧ ∀ p' : Schema.Place R.fields, p'.get w ≠ p'.get v → p' = p) ∧
    ∀ (r r' : R.Value) (base : Nat),
      R.fields.readAt R.fields.offsets r base b = R.fields.readAt R.fields.offsets r' base b := by
  refine ⟨decode_eq_error_iff, tryDecode_eq_error_iff, ?_, ?_, ?_, ?_⟩
  · intro long
    refine ⟨Schema.Record.ofBytes R.fields b, R.decode_eq long, tryDecode_eq long, ?_⟩
    intro p
    obtain ⟨o, os, way, sum⟩ := p.leads
    exact ⟨o :: os, way, sum ▸ p.get_ofBytes b⟩
  · intro long c same
    have long' : R.byteLen ≤ c.length := by
      have := congrArg List.length same
      simp only [List.length_take] at this
      omega
    have record := Schema.Record.ofBytes_eq_of_take (s := R.fields) same
    rw [R.decode_eq long, R.decode_eq long', tryDecode_eq long, tryDecode_eq long', record]
    exact ⟨rfl, rfl⟩
  · intro q x v w before after p changed
    rw [eq_ofBytes_of_decode before, eq_ofBytes_of_decode after] at *
    -- a value that changes has the changed byte in its window, and no byte lies in two windows
    have owner (p : Schema.Place R.fields)
        (h : p.get (Schema.Record.ofBytes R.fields (b.set q x)) ≠
          p.get (Schema.Record.ofBytes R.fields b)) : q ∈ p.windowAt 0 := by
      by_contra outside
      exact h (Schema.Record.get_ofBytes_set outside b x)
    refine ⟨owner p changed, ?_⟩
    intro p' changed'
    exact Schema.Place.eq_of_mem_windowAt (owner p' changed') (owner p changed)
  · intro r r' base
    rw [Schema.offsets, Schema.readAt_eq, Schema.readAt_eq]

/-- A frame starts with the kind 7, which the buffer replaces. Its byte 4 is the first one of the
checksum, the third field of the header. -/
theorem decode_leafwise_frame :
    let b : Bytes := List.replicate 18 3
    let checksum : Schema.Place Samples.frame.fields := .next (.inside (.next (.next .here)))
    Samples.frame.byteLen ≤ b.length ∧ checksum.route = [1, 2] ∧
      ∃ v w, Samples.frame.decode b = .ok v ∧ Samples.frame.tryDecode b = .ok v ∧
        Samples.frame.decode (b.set 4 255) = .ok w ∧ v.1.val = 3 ∧
        checksum.get w ≠ checksum.get v ∧ ∀ p, p.get w ≠ p.get v → p = checksum := by
  intro b checksum
  have long : Samples.frame.byteLen ≤ b.length := by decide
  obtain ⟨-, -, total, -, local_change, -⟩ := decode_leafwise Samples.frame b
  obtain ⟨v, decoded, tried, -⟩ := total long
  have after : Samples.frame.decode (b.set 4 255) = .ok _ :=
    Samples.frame.decode_eq (by decide)
  have value := eq_ofBytes_of_decode decoded
  have changed : checksum.get (Schema.Record.ofBytes Samples.frame.fields (b.set 4 255)) ≠
      checksum.get v := by
    rw [value]
    decide
  refine ⟨long, rfl, v, _, decoded, tried, after, ?_, changed, ?_⟩
  · rw [value]
    decide
  · exact (local_change 4 255 v _ decoded after checksum changed).2

end RecordType

end WireRecords
