import WireRecords.Listing
import WireRecords.Proofs.Place

/-!
# The two field lists of a record type

Lists that agree walk the same fields in the same order, whatever the fields are called: checking
the outermost fields of every type against each other suffices for records nested to any depth. So
what is written along the outward lists is read back along the inward ones, at the offsets of the
outward ones, and neither the bytes nor their positions depend on any name.
-/

namespace WireRecords

theorem ByteOrder.ofEndian_injective : Function.Injective ByteOrder.ofEndian := by
  intro e e' h
  cases e with
  | big =>
    cases e' with
    | big => rfl
    | little => cases h
  | little =>
    cases e' with
    | big => cases h
    | little => rfl

theorem Slot.eq_iff {a b : Slot} : a = b ↔ a.type = b.type ∧ a.order = b.order := by
  constructor
  · rintro rfl
    exact ⟨rfl, rfl⟩
  · rintro ⟨type, order⟩
    cases a with
    | single p h =>
      cases b with
      | single q h' =>
        cases type
        rfl
      | ordered q e h' => cases e <;> cases order
    | ordered p e h =>
      cases b with
      | single q h' => cases e <;> cases order
      | ordered q e' h' =>
        cases type
        cases ByteOrder.ofEndian_injective order
        rfl

namespace Schema

/-- The same fields in the same order under any names, in nested records too. -/
inductive Alike : Schema → Schema → Prop where
  | nil : Alike nil nil
  | leaf (name name' : Option String) (slot : Slot) {rest rest' : Schema} :
      Alike rest rest' → Alike (leaf name slot rest) (leaf name' slot rest')
  | group (name name' : Option String) {inner inner' rest rest' : Schema} :
      Alike inner inner' → Alike rest rest' →
      Alike (group name inner rest) (group name' inner' rest')

namespace Alike

variable {s t : Schema}

theorem refl (s : Schema) : Alike s s := by
  induction s with
  | nil => exact nil
  | leaf name slot rest ih => exact leaf name name slot ih
  | group name inner rest ih_inner ih_rest => exact group name name ih_inner ih_rest

theorem byteLen_eq (h : Alike s t) : s.byteLen = t.byteLen := by
  induction h with
  | nil => rfl
  | leaf name name' slot _ ih => rw [byteLen, byteLen, ih]
  | group name name' _ _ ih_inner ih_rest => rw [byteLen, byteLen, ih_inner, ih_rest]

theorem offsetsFrom_eq (h : Alike s t) (start : Nat) :
    s.offsetsFrom start = t.offsetsFrom start := by
  induction h generalizing start with
  | nil => rfl
  | leaf name name' slot _ ih => rw [offsetsFrom, offsetsFrom, ih]
  | group name name' inner _ _ ih_rest => rw [offsetsFrom, offsetsFrom, inner.byteLen_eq, ih_rest]

theorem offsets_eq (h : Alike s t) : s.offsets = t.offsets := h.offsetsFrom_eq 0

theorem flatten_eq (h : Alike s t) : s.flatten = t.flatten := by
  induction h with
  | nil => rfl
  | leaf name name' slot _ ih => rw [flatten, flatten, ih]
  | group name name' _ _ ih_inner ih_rest => rw [flatten, flatten, ih_inner, ih_rest]

theorem readBy_eq (h : Alike s t) (os : List Nat) (r : t.Record) (base : Nat) (buf : Bytes) :
    s.readBy t os r base buf = t.readAt os r base buf := by
  induction h generalizing os base with
  | nil => cases os <;> rfl
  | leaf name name' slot _ ih =>
    cases os with
    | nil => rfl
    | cons o os => exact congrArg (Prod.mk _) (ih os r.2 base)
  | @group name name' inner inner' _ _ h_inner _ ih_inner ih_rest =>
    cases os with
    | nil => rfl
    | cons o os =>
      have nested : inner.readBy inner' inner.offsets r.1 (base + o) buf =
          inner'.readAt inner'.offsets r.1 (base + o) buf := by
        rw [ih_inner, h_inner.offsets_eq]
      exact congrArg₂ Prod.mk nested (ih_rest os r.2 base)

end Alike

namespace Record

theorem length_leaves (s : Schema) (r : s.Record) : (leaves s r).length = s.flatten.length := by
  induction s with
  | nil => rfl
  | leaf name slot rest ih => rw [leaves, flatten, List.length_cons, List.length_cons, ih]
  | group name inner rest ih_inner ih_rest =>
    rw [leaves, flatten, List.length_append, List.length_append, ih_inner, ih_rest]

variable {s t : Schema}

theorem leaves_ofBytes_of_alike (h : Alike s t) (bs : Bytes) :
    leaves t (ofBytes t bs) = leaves s (ofBytes s bs) := by
  induction h generalizing bs with
  | nil => rfl
  | leaf name name' slot _ ih =>
    exact congrArg ((slot.decode (bs.take slot.byteLen)).val :: ·) (ih (bs.drop slot.byteLen))
  | @group name name' inner inner' rest rest' h_inner _ ih_inner ih_rest =>
    have behind : leaves rest' (ofBytes rest' (bs.drop inner'.byteLen)) =
        leaves rest (ofBytes rest (bs.drop inner.byteLen)) := by
      rw [ih_rest, h_inner.byteLen_eq]
    exact congrArg₂ (· ++ ·) (ih_inner bs) behind

theorem bytes_of_alike (h : Alike s t) {v : s.Record} {w : t.Record}
    (same : leaves t w = leaves s v) : bytes t w = bytes s v := by
  induction h with
  | nil => rfl
  | leaf name name' slot _ ih =>
    obtain ⟨head, tail⟩ := List.cons.inj same
    have first : w.1 = v.1 := Scalar.ext head
    rw [bytes_leaf, bytes_leaf, first, ih tail]
  | @group name name' inner inner' rest rest' h_inner _ ih_inner ih_rest =>
    -- both records have as many values inside the nested one, so the lists split at the same place
    have count : (leaves inner' w.1).length = (leaves inner v.1).length := by
      rw [length_leaves, length_leaves, h_inner.flatten_eq]
    obtain ⟨head, tail⟩ := List.append_inj same count
    rw [bytes_group, bytes_group, ih_inner head, ih_rest tail]

theorem exists_leaves_of_alike (h : Alike s t) (v : s.Record) :
    ∃ w : t.Record, leaves t w = leaves s v :=
  ⟨ofBytes t (bytes s v), by
    have back := ofBytes_bytes s v []
    rw [List.append_nil] at back
    rw [leaves_ofBytes_of_alike h, back]⟩

end Record

variable {s t : Schema}

theorem leaves_readAt_writeAt (h : Alike s t) (v : s.Record) (r : t.Record) {base : Nat}
    {buf : Bytes} (fits : base + s.byteLen ≤ buf.length) :
    Record.leaves t (t.readAt s.offsets r base (s.writeAt s.offsets v base buf)) =
      Record.leaves s v := by
  have written : (s.writeAt s.offsets v base buf).drop base =
      Record.bytes s v ++ buf.drop (base + s.byteLen) := by
    rw [offsets, s.writeAt_eq v (by omega), Bytes.overwrite, Record.length_bytes, Nat.add_zero,
      List.append_assoc, List.drop_left' (List.length_take_of_le (by omega))]
  calc Record.leaves t (t.readAt s.offsets r base (s.writeAt s.offsets v base buf))
    _ = Record.leaves t (Record.ofBytes t ((s.writeAt s.offsets v base buf).drop base)) := by
      rw [h.offsets_eq, offsets, t.readAt_eq, Nat.add_zero]
    _ = Record.leaves s (Record.ofBytes s (Record.bytes s v ++ buf.drop (base + s.byteLen))) := by
      rw [Record.leaves_ofBytes_of_alike h, ← written, h.offsets_eq]
    _ = Record.leaves s v := by rw [Record.ofBytes_bytes]

/-- The two schemas put records at the same places, with the same bytes for the same values, and
read the same values from the same bytes. -/
structure Interchangeable (s t : Schema) : Prop where
  byteLen_eq : t.byteLen = s.byteLen
  offsets_eq : t.offsets = s.offsets
  exists_same : ∀ v : s.Record, ∃ w : t.Record, Record.leaves t w = Record.leaves s v
  write_eq : ∀ (v : s.Record) (w : t.Record), Record.leaves t w = Record.leaves s v →
    ∀ (base : Nat) (buf : Bytes), base + s.byteLen ≤ buf.length →
      t.writeAt t.offsets w base buf = s.writeAt s.offsets v base buf
  read_eq : ∀ (r : s.Record) (r' : t.Record) (base : Nat) (buf : Bytes),
    Record.leaves t (t.readAt t.offsets r' base buf) =
      Record.leaves s (s.readAt s.offsets r base buf)

theorem Alike.interchangeable (h : Alike s t) : s.Interchangeable t where
  byteLen_eq := h.byteLen_eq.symm
  offsets_eq := h.offsets_eq.symm
  exists_same := Record.exists_leaves_of_alike h
  write_eq v w same base buf fits := by
    have fits' := h.byteLen_eq ▸ fits
    rw [offsets, offsets, t.writeAt_eq w (by omega), s.writeAt_eq v (by omega),
      Record.bytes_of_alike h same]
  read_eq r r' base buf := by
    rw [offsets, offsets, t.readAt_eq, s.readAt_eq, Record.leaves_ofBytes_of_alike h]

end Schema

namespace Listing

theorem agrees_iff {a b : Listing} : a.agrees b = true ↔ a.declared = b.declared := by
  induction a generalizing b with
  | nil => cases b <;> simp [agrees, declared]
  | leaf name slot rest ih =>
    cases b with
    | nil => simp [agrees, declared]
    | leaf name' slot' rest' => simp [agrees, declared, ih, Slot.eq_iff]
    | group name' outward' inward' rest' => simp [agrees, declared]
  | group name outward inward rest _ _ ih =>
    cases b with
    | nil => simp [agrees, declared]
    | leaf name' slot' rest' => simp [agrees, declared]
    | group name' outward' inward' rest' => simp [agrees, declared, ih]

inductive Agreeing : Listing → Listing → Prop where
  | nil : Agreeing nil nil
  | leaf (name name' : Option String) (slot : Slot) {rest rest' : Listing}
      (behind : rest.agrees rest' = true) : Agreeing (leaf name slot rest) (leaf name' slot rest')
  | group (name name' : Option String) (outward inward : Listing) {rest rest' : Listing}
      (behind : rest.agrees rest' = true) :
      Agreeing (group name outward inward rest) (group name' outward inward rest')

theorem agreeing_of_agrees {a b : Listing} (h : a.agrees b = true) : Agreeing a b := by
  cases a with
  | nil =>
    cases b with
    | nil => exact .nil
    | _ => cases h
  | leaf name slot rest =>
    cases b with
    | leaf name' slot' rest' =>
      obtain ⟨same, behind⟩ := Bool.and_eq_true_iff.mp h
      cases of_decide_eq_true same
      exact .leaf name name' slot behind
    | _ => cases h
  | group name outward inward rest =>
    cases b with
    | group name' outward' inward' rest' =>
      obtain ⟨same, behind⟩ := Bool.and_eq_true_iff.mp h
      obtain ⟨rfl, rfl⟩ := of_decide_eq_true same
      exact .group name name' outward inward behind
    | _ => cases h

theorem alike_outgoing {a b : Listing} (agree : a.agrees b = true) :
    a.outgoing.Alike b.outgoing := by
  induction a generalizing b with
  | nil =>
    cases agreeing_of_agrees agree
    exact .nil
  | leaf name slot rest ih =>
    cases agreeing_of_agrees agree with
    | leaf _ name' _ behind => exact .leaf name name' slot (ih behind)
  | group name outward inward rest _ _ ih =>
    cases agreeing_of_agrees agree with
    | group _ name' _ _ behind => exact .group name name' (.refl _) (ih behind)

/-- The check of the outermost fields is enough for the whole walk, since the types of nested
records have passed it themselves. -/
theorem alike_incoming {a b : Listing} (agree : a.agrees b = true) (checked : a.checked = true) :
    a.outgoing.Alike b.incoming := by
  induction a generalizing b with
  | nil =>
    cases agreeing_of_agrees agree
    exact .nil
  | leaf name slot rest ih =>
    cases agreeing_of_agrees agree with
    | leaf _ name' _ behind => exact .leaf name name' slot (ih behind checked)
  | group name outward inward rest ih_outward _ ih_rest =>
    cases agreeing_of_agrees agree with
    | group _ name' _ _ behind =>
      obtain ⟨nested, checked⟩ := Bool.and_eq_true_iff.mp checked
      obtain ⟨pair, inside⟩ := Bool.and_eq_true_iff.mp nested
      exact .group name name' (ih_outward pair inside) (ih_rest behind checked)

theorem outgoing_ofSchema (s : Schema) : (ofSchema s).outgoing = s := by
  induction s with
  | nil => rfl
  | leaf name slot rest ih => rw [ofSchema, outgoing, ih]
  | group name inner rest ih_inner ih_rest => rw [ofSchema, outgoing, ih_inner, ih_rest]

theorem agrees_ofSchema (s t : Schema) : (ofSchema s).agrees (ofSchema t) = s.agrees t := by
  have injective : Function.Injective ofSchema := Function.LeftInverse.injective outgoing_ofSchema
  induction s generalizing t with
  | nil => cases t <;> rfl
  | leaf name slot rest ih =>
    cases t with
    | nil => rfl
    | leaf name' slot' rest' => rw [ofSchema, ofSchema, agrees, Schema.agrees, ih]
    | group name' inner' rest' => rfl
  | group name inner rest _ ih =>
    cases t with
    | nil => rfl
    | leaf name' slot' rest' => rfl
    | group name' inner' rest' =>
      simp only [ofSchema, agrees, Schema.agrees, ih, and_self, injective.eq_iff]

/-- Two lists agree just if they have the same length and at each position the same type and byte
order. If they do, and the types of nested records have passed the check as well, both have the same
size and the same offsets, and whatever is written along the outward lists is read back along the
inward ones from the offsets of the outward ones. Names have no part in it: schemas that differ in
nothing else, on any level, are interchangeable. -/
theorem agrees_suffices (a b : Listing) :
    (a.agrees b = true ↔ a.declared.length = b.declared.length ∧
      ∀ (i : Nat) (ha : i < a.declared.length) (hb : i < b.declared.length),
        a.declared[i].1 = b.declared[i].1 ∧ a.declared[i].2 = b.declared[i].2) ∧
    (a.agrees b = true → a.checked = true →
      b.outgoing.byteLen = a.outgoing.byteLen ∧ b.outgoing.offsets = a.outgoing.offsets ∧
      ∀ (v : a.outgoing.Record) (r : b.incoming.Record) (base : Nat) (buf : Bytes),
        base + a.outgoing.byteLen ≤ buf.length →
          Schema.Record.leaves b.incoming
              (a.outgoing.readBy b.incoming a.outgoing.offsets r base
                (a.outgoing.writeAt a.outgoing.offsets v base buf)) =
            Schema.Record.leaves a.outgoing v) ∧
    (∀ s t : Schema, s.Alike t → s.Interchangeable t) ∧
    ∀ s t : Schema, s.agrees t = (ofSchema s).agrees (ofSchema t) := by
  refine ⟨?_, ?_, fun s t => Schema.Alike.interchangeable, fun s t => (agrees_ofSchema s t).symm⟩
  · rw [agrees_iff, List.ext_getElem_iff]
    simp only [Prod.ext_iff]
  · intro agree checked
    have outward := alike_outgoing agree
    have inward := alike_incoming agree checked
    refine ⟨outward.byteLen_eq.symm, outward.offsets_eq.symm, ?_⟩
    intro v r base buf fits
    rw [inward.readBy_eq]
    exact Schema.leaves_readAt_writeAt inward v r fits

/-- A nested record and a number behind it, all under two names each. -/
theorem agrees_suffices_renamed :
    let point (x y : String) : Listing :=
      .leaf x (.ordered .i16 .big) <| .leaf y (.ordered .i16 .big) .nil
    let list (start length : String) : Listing :=
      .group start (point "x" "y") (point "u" "v") <| .leaf length (.ordered .u32 .little) .nil
    let a := list "from" "length"
    let b := list "start" "count"
    let v : a.outgoing.Record :=
      ((Scalar.ofBits _ 258, Scalar.ofBits _ 65535, ()), Scalar.ofBits _ 5, ())
    let buf : Bytes := List.replicate 10 170
    a.agrees b = true ∧ a.checked = true ∧ 1 + a.outgoing.byteLen ≤ buf.length ∧
      a.outgoing.Alike b.incoming ∧ b.incoming.offsets = [0, 4] ∧
      Schema.Record.leaves b.incoming
          (a.outgoing.readBy b.incoming a.outgoing.offsets (Schema.Record.zero _) 1
            (a.outgoing.writeAt a.outgoing.offsets v 1 buf)) = [258, -1, 5] := by
  intro point list a b v buf
  have agree : a.agrees b = true := by decide
  have checked : a.checked = true := by decide
  have room : 1 + a.outgoing.byteLen ≤ buf.length := by decide
  have alike : a.outgoing.Alike b.incoming := alike_incoming agree checked
  obtain ⟨-, read, nameless, -⟩ := agrees_suffices a b
  have back := (read agree checked).2.2 v (Schema.Record.zero _) 1 buf room
  have offsets := (nameless _ _ alike).offsets_eq
  refine ⟨agree, checked, room, alike, offsets.trans (by decide), back.trans (by decide)⟩

end Listing

end WireRecords
