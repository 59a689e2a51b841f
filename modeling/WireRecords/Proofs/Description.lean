import WireRecords.Proofs.InPlace
import WireRecords.Proofs.Lookup
import WireRecords.Proofs.Route

/-!
# The layout of a record type

Describing a record type gives one definition per field, at the offset that the field has in the
outermost record. The definitions inside a nested record tile its window, the outermost ones tile
the whole record, and so the running maximum of their ends is the record's size. A value is
therefore never read from behind the record. Offsets are 64-bit words, and no sum of them wraps in a
record whose size is one.
-/

namespace WireRecords

namespace FieldDefinition

def window (d : FieldDefinition) : Window := ⟨d.offset.toNat, d.length.toNat⟩

/-- What a definition says of its field, apart from its place and the kind of primitive. -/
def summary (d : FieldDefinition) : String × ByteOrder × Nat × Bool :=
  (d.name, d.order, d.length.toNat, d.isRecord)

end FieldDefinition

namespace Schema.FieldInfo

def summary (f : FieldInfo) : String × ByteOrder × Nat × Bool :=
  (f.key, f.order, f.byteLen, f.isRecord)

end Schema.FieldInfo

namespace FieldList

def append : FieldList → FieldList → FieldList
  | nil, more => more
  | cons d children rest, more => cons d children (rest.append more)

theorem add_append (fields more : FieldList) (d : FieldDefinition) (children : FieldList) :
    (fields.add d children).append more = fields.append (cons d children more) := by
  induction fields with
  | nil => rfl
  | cons head inner rest _ ih => rw [add, append, ih, append]

theorem tops_add (fields : FieldList) (d : FieldDefinition) (children : FieldList) :
    (fields.add d children).tops = fields.tops ++ [d] := by
  induction fields with
  | nil => rfl
  | cons head inner rest _ ih => rw [add, tops, ih, tops, List.cons_append]

theorem count_eq_length_tops (fields : FieldList) : fields.count = fields.tops.length := by
  induction fields with
  | nil => rfl
  | cons d children rest _ ih => rw [count, tops, List.length_cons, ih]

end FieldList

namespace Layout

def addAll (l : Layout) : FieldList → Layout
  | .nil => l
  | .cons d children rest => (l.add d children).addAll rest

theorem addAll_eq (l : Layout) (fields : FieldList) :
    l.addAll fields = ⟨l.name, l.fields.append fields⟩ := by
  induction fields generalizing l with
  | nil =>
    have keep : l.fields.append .nil = l.fields := by
      induction l.fields with
      | nil => rfl
      | cons d children rest _ ih => rw [FieldList.append, ih]
    rw [addAll, keep]
  | cons d children rest _ ih => rw [addAll, ih, add, FieldList.add_append]

theorem size_add (l : Layout) (d : FieldDefinition) (children : FieldList) :
    (l.add d children).size = max l.size d.stop := by
  simp only [size, add, FieldList.extent, FieldList.tops_add, List.foldl_append, List.foldl_cons,
    List.foldl_nil]

end Layout

theorem max_ofNat_add {a b : Nat} (h : a + b < UInt64.size) :
    max (UInt64.ofNat a) (UInt64.ofNat a + UInt64.ofNat b) = UInt64.ofNat (a + b) := by
  have grows : UInt64.ofNat a ≤ UInt64.ofNat (a + b) :=
    (UInt64.ofNat_le_iff_le (by omega) h).mpr (Nat.le_add_right a b)
  rw [← UInt64.ofNat_add, UInt64.max_def, if_pos grows]

namespace Schema

theorem size_addAll_describe {s : Schema} {l : Layout} {start : Nat} (index : Nat)
    (fits : start + s.byteLen < UInt64.size) (h : l.size = .ofNat start) :
    (l.addAll (s.describe index start)).size = .ofNat (start + s.byteLen) := by
  induction s generalizing l index start with
  | nil => exact h
  | leaf name slot rest ih =>
    rw [byteLen, ← Nat.add_assoc] at fits ⊢
    rw [describe, Layout.addAll]
    apply ih _ fits
    -- the fields so far end where this one starts, so its end is the new maximum
    rw [Layout.size_add, h]
    exact max_ofNat_add (by omega)
  | group name inner rest _ ih =>
    rw [byteLen, ← Nat.add_assoc] at fits ⊢
    rw [describe, Layout.addAll]
    apply ih _ fits
    rw [Layout.size_add, h]
    exact max_ofNat_add (by omega)

theorem window_described {start len : Nat} (fits : start + len < UInt64.size) (name : String)
    (order : ByteOrder) (kind : FieldKind) :
    (FieldDefinition.mk name (.ofNat start) (.ofNat len) order kind).window = ⟨start, len⟩ := by
  rw [FieldDefinition.window, UInt64.toNat_ofNat_of_lt' (by omega),
    UInt64.toNat_ofNat_of_lt' (by omega)]

theorem offsets_describe {s : Schema} {start : Nat} (index : Nat)
    (fits : start + s.byteLen < UInt64.size) :
    (s.describe index start).tops.map (fun d => d.offset.toNat) = s.offsetsFrom start := by
  induction s generalizing index start with
  | nil => rfl
  | leaf name slot rest ih =>
    rw [byteLen] at fits
    rw [describe, FieldList.tops, List.map_cons, ih _ (by omega), offsetsFrom,
      UInt64.toNat_ofNat_of_lt' (by omega)]
  | group name inner rest _ ih =>
    rw [byteLen] at fits
    rw [describe, FieldList.tops, List.map_cons, ih _ (by omega), offsetsFrom,
      UInt64.toNat_ofNat_of_lt' (by omega)]

theorem isRecord_ofPrimitive (name : String) (offset length : UInt64) (order : ByteOrder)
    (p : Primitive) :
    (FieldDefinition.mk name offset length order (FieldKind.ofPrimitive p)).isRecord = false := by
  cases p with
  | integer k =>
    rw [FieldKind.ofPrimitive]
    split <;> rfl
  | boolean => rfl
  | byte => rfl
  | enumeration name base => rfl

theorem summaries_describe {s : Schema} {start : Nat} (index : Nat)
    (fits : start + s.byteLen < UInt64.size) :
    (s.describe index start).tops.map FieldDefinition.summary =
      (s.fieldInfos index).map FieldInfo.summary := by
  induction s generalizing index start with
  | nil => rfl
  | leaf name slot rest ih =>
    rw [byteLen] at fits
    rw [describe, FieldList.tops, List.map_cons, ih _ (by omega), FieldDefinition.summary,
      isRecord_ofPrimitive, UInt64.toNat_ofNat_of_lt' (by omega)]
    rfl
  | group name inner rest _ ih =>
    rw [byteLen] at fits
    rw [describe, FieldList.tops, List.map_cons, ih _ (by omega), FieldDefinition.summary,
      UInt64.toNat_ofNat_of_lt' (by omega)]
    rfl

theorem windows_describe {s : Schema} {start : Nat} (index : Nat)
    (fits : start + s.byteLen < UInt64.size) :
    (s.describe index start).tops.map FieldDefinition.window =
      List.zipWith Window.mk (s.offsetsFrom start)
        ((s.fieldInfos index).map FieldInfo.byteLen) := by
  have lengths := congrArg (List.map fun m : String × ByteOrder × Nat × Bool => m.2.2.1)
    (summaries_describe index fits)
  rw [List.map_map, List.map_map] at lengths
  calc (s.describe index start).tops.map FieldDefinition.window
    _ = List.zipWith Window.mk ((s.describe index start).tops.map fun d => d.offset.toNat)
          ((s.describe index start).tops.map fun d => d.length.toNat) := by
        rw [List.zipWith_map, List.zipWith_self]
        rfl
    _ = List.zipWith Window.mk (s.offsetsFrom start) ((s.fieldInfos index).map FieldInfo.byteLen) :=
        congrArg₂ (List.zipWith Window.mk) (offsets_describe index fits) lengths

theorem tiles_describe {s : Schema} {start : Nat} (index : Nat)
    (fits : start + s.byteLen < UInt64.size) :
    Window.Tiles start (start + s.byteLen)
      ((s.describe index start).tops.map FieldDefinition.window) := by
  rw [windows_describe index fits]
  exact s.tiles_offsetsFrom start index

/-- What every definition of a described schema keeps to: its window lies in that of the record, and
if it is a nested record the definitions inside tile the window. -/
theorem mem_nodes_describe {s : Schema} {index start : Nat} (fits : start + s.byteLen < UInt64.size)
    {d : FieldDefinition} {children : FieldList}
    (h : (d, children) ∈ (s.describe index start).nodes) :
    start ≤ d.window.start ∧ d.window.stop ≤ start + s.byteLen ∧
      (d.isRecord = true →
        Window.Tiles d.window.start d.window.stop (children.tops.map FieldDefinition.window)) := by
  induction s generalizing index start with
  | nil => cases h
  | leaf name slot rest ih =>
    rw [byteLen] at fits ⊢
    rcases List.mem_cons.mp h with h | h
    · cases h
      rw [window_described (by omega)]
      refine ⟨le_refl start, Nat.add_le_add_left (Nat.le_add_right _ _) start, ?_⟩
      intro record
      rw [isRecord_ofPrimitive] at record
      cases record
    · obtain ⟨low, high, tiles⟩ := ih (by omega) h
      exact ⟨by omega, by omega, tiles⟩
  | group name inner rest ih_inner ih_rest =>
    rw [byteLen] at fits ⊢
    -- the definition of the nested record itself, one inside it, or one behind it
    rcases List.mem_cons.mp h with h | h
    · cases h
      rw [window_described (by omega)]
      refine ⟨le_refl start, Nat.add_le_add_left (Nat.le_add_right _ _) start, ?_⟩
      intro _
      have tiles := tiles_describe 0 (show start + inner.byteLen < UInt64.size by omega)
      exact tiles
    · rcases List.mem_append.mp h with h | h
      · obtain ⟨low, high, tiles⟩ := ih_inner (by omega) h
        exact ⟨low, by omega, tiles⟩
      · obtain ⟨low, high, tiles⟩ := ih_rest (by omega) h
        exact ⟨by omega, by omega, tiles⟩

theorem records_describe {s : Schema} {start : Nat} (index : Nat)
    (fits : start + s.byteLen < UInt64.size) :
    ((s.describe index start).nodes.filter fun node => node.1.isRecord).map
        (fun node => node.2.tops.map FieldDefinition.summary) =
      s.nested.map fun t => (t.fieldInfos 0).map FieldInfo.summary := by
  induction s generalizing index start with
  | nil => rfl
  | leaf name slot rest ih =>
    rw [byteLen] at fits
    rw [describe, FieldList.nodes, FieldList.nodes, List.nil_append, List.filter_cons_of_neg,
      ih _ (by omega), nested]
    simp only [isRecord_ofPrimitive, Bool.false_eq_true, not_false_eq_true]
  | group name inner rest ih_inner ih_rest =>
    rw [byteLen] at fits
    rw [describe, FieldList.nodes, List.filter_cons_of_pos rfl, List.filter_append, List.map_cons,
      List.map_append, ih_inner _ (by omega), ih_rest _ (by omega), summaries_describe _ (by omega),
      nested, List.map_cons, List.map_append]

end Schema

namespace RecordType

/-- Sizes are 64-bit words, so a record that can be held has a size below their number. -/
def Addressable (R : RecordType) : Prop := R.byteLen < UInt64.size

instance (R : RecordType) : Decidable R.Addressable :=
  inferInstanceAs (Decidable (R.byteLen < UInt64.size))

theorem Addressable.fits {R : RecordType} (h : R.Addressable) :
    0 + R.fields.byteLen < UInt64.size := by
  rw [Nat.zero_add]
  exact h

theorem layout_eq_addAll (R : RecordType) (name : String) :
    R.layout name = (Layout.named name).addAll (R.fields.describe 0 0) := by
  rw [Layout.addAll_eq]
  rfl

theorem toNat_size_layout {R : RecordType} (h : R.Addressable) (name : String) :
    (R.layout name).size.toNat = R.byteLen := by
  rw [layout_eq_addAll, Schema.size_addAll_describe 0 h.fits rfl, Nat.zero_add]
  exact UInt64.toNat_ofNat_of_lt' h

end RecordType

namespace Layout

variable {l : Layout} {path : String}

theorem value_of_find? {d : FieldDefinition} {children : FieldList}
    (found : l.find? path = some (d, children)) (scalar : d.isRecord = false) (data : Bytes) :
    l.value path data =
      if data.length < l.size.toNat then
        .error (.bufferSize "get_field_value" l.size.toNat data.length)
      else .ok (readBits d.order (Bytes.window data d.window.start d.window.length)) := by
  rw [value, found]
  simp only [scalar, Bool.false_eq_true, if_false]
  rfl

theorem value_of_resolve? {d : FieldDefinition} {children : FieldList}
    (found : l.fields.resolve? (Text.split '.' path) = some (d, children))
    (scalar : d.isRecord = false) (data : Bytes) :
    l.value path data =
      if data.length < l.size.toNat then
        .error (.bufferSize "get_field_value" l.size.toNat data.length)
      else .ok (readBits d.order (Bytes.window data d.window.start d.window.length)) :=
  value_of_find? ((l.find?_eq_resolve? path).trans found) scalar data

theorem value_eq_invalidField_iff (data : Bytes) :
    (∃ place fault, l.value path data = .error (.invalidField place fault)) ↔
      l.fields.resolve? (Text.split '.' path) = none ∨
        ∃ d children, l.fields.resolve? (Text.split '.' path) = some (d, children) ∧
          d.isRecord = true := by
  rw [← find?_eq_resolve?]
  cases found : l.find? path with
  | none =>
    rw [value, found]
    simp
  | some node =>
    obtain ⟨d, children⟩ := node
    cases record : d.isRecord with
    | true =>
      rw [value, found]
      simp [record]
    | false =>
      rw [value_of_find? found record data]
      split <;> simp [record]

end Layout

namespace RecordType

/-- The layout of a record type has its size, its fields and their offsets, and on every level what
is declared there, in declaration order, tiling the window of the record around it. A path is
refused if it leads to no primitive field, else a buffer is refused if it is too short, and else the
bits are read from inside the record. -/
theorem layout_mirrors (R : RecordType) (h : R.Addressable) (name : String) :
    R.layout name = (Layout.named name).addAll (R.fields.describe 0 0) ∧
    (R.layout name).size.toNat = R.byteLen ∧
    (R.layout name).fields.count = R.fields.fieldCount ∧
    (R.layout name).fields.tops.map (fun d => d.offset.toNat) = R.fields.offsets ∧
    (R.layout name).fields.tops.map FieldDefinition.summary =
      (R.fields.fieldInfos 0).map Schema.FieldInfo.summary ∧
    ((R.layout name).fields.nodes.filter fun node => node.1.isRecord).map
        (fun node => node.2.tops.map FieldDefinition.summary) =
      R.fields.nested.map (fun t => (t.fieldInfos 0).map Schema.FieldInfo.summary) ∧
    (∀ d children, (d, children) ∈ (R.layout name).fields.nodes → d.isRecord = true →
      Window.Tiles d.window.start d.window.stop (children.tops.map FieldDefinition.window)) ∧
    ∀ (path : String) (data : Bytes),
      ((∃ place fault, (R.layout name).value path data = .error (.invalidField place fault)) ↔
        (R.layout name).fields.resolve? (Text.split '.' path) = none ∨
          ∃ d children, (R.layout name).fields.resolve? (Text.split '.' path) = some (d, children) ∧
            d.isRecord = true) ∧
      ∀ d children, (R.layout name).fields.resolve? (Text.split '.' path) = some (d, children) →
        d.isRecord = false →
          ((R.layout name).value path data =
              .error (.bufferSize "get_field_value" R.byteLen data.length) ↔
            data.length < R.byteLen) ∧
          (R.byteLen ≤ data.length →
            (R.layout name).value path data = .ok (Layout.readBits d.order
              (Bytes.window data d.window.start d.window.length)) ∧
            d.window.stop ≤ R.byteLen) := by
  have fits := h.fits
  have size := toNat_size_layout h name
  have inside {d : FieldDefinition} {children : FieldList}
      (node : (d, children) ∈ (R.layout name).fields.nodes) := Schema.mem_nodes_describe fits node
  refine ⟨R.layout_eq_addAll name, size, ?_, Schema.offsets_describe 0 fits,
    Schema.summaries_describe 0 fits, Schema.records_describe 0 fits, ?_, ?_⟩
  · rw [FieldList.count_eq_length_tops, ← List.length_map FieldDefinition.summary, layout,
      Schema.summaries_describe 0 fits, List.length_map, Schema.length_fieldInfos]
  · intro d children node record
    exact (inside node).2.2 record
  · intro path data
    refine ⟨Layout.value_eq_invalidField_iff data, ?_⟩
    intro d children found scalar
    have value := Layout.value_of_resolve? found scalar data
    rw [size] at value
    have stop := (inside (FieldList.mem_nodes_of_resolve? found)).2.1
    rw [Nat.zero_add] at stop
    constructor
    · rw [value]
      split <;> simp [*]
    · intro long
      rw [value, if_neg (Nat.not_lt.mpr long)]
      exact ⟨rfl, stop⟩

/-- A byte three records down, a nested record and a key that is not there. -/
theorem layout_mirrors_deep :
    let l := Samples.deep.layout "deep"
    let data : Bytes := (List.range 19).map UInt8.ofNat
    Samples.deep.Addressable ∧ l.size.toNat = 19 ∧ l.value "in.in.in.in.v" data = .ok 12 ∧
      (∃ place fault, l.value "in.in" [] = .error (.invalidField place fault)) ∧
      (∃ place fault, l.value "in.x" data = .error (.invalidField place fault)) ∧
      l.value "tail.a" (data.take 18) = .error (.bufferSize "get_field_value" 19 18) := by
  intro l data
  have fits : Samples.deep.Addressable := by decide
  obtain ⟨-, size, -, -, -, -, -, values⟩ := layout_mirrors Samples.deep fits "deep"
  refine ⟨fits, size, ?_, ?_, ?_, ?_⟩
  · have found : l.fields.resolve? (Text.split '.' "in.in.in.in.v") =
        some (⟨"v", 12, 1, .unspecified, .uint⟩, .nil) := by decide
    rw [(((values _ data).2 _ _ found rfl).2 (by decide)).1]
    decide
  · have found : l.fields.resolve? (Text.split '.' "in.in") =
        some (⟨"in", 8, 7, .unspecified, .record⟩, Samples.level2.describe 0 8) := by decide
    exact (values "in.in" []).1.mpr (.inr ⟨_, _, found, rfl⟩)
  · exact (values "in.x" data).1.mpr (.inl (by decide))
  · have found : l.fields.resolve? (Text.split '.' "tail.a") =
        some (⟨"a", 17, 2, .little, .uint⟩, .nil) := by decide
    exact ((values _ (data.take 18)).2 _ _ found rfl).1.mpr (by decide)

end RecordType

end WireRecords
