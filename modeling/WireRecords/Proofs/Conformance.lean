import WireRecords.Proofs.JsonRoundTrip

/-!
# Conforming documents

A document conforms to a schema if it is an object with a member for every field: an object that
conforms again for a nested record, a boolean for a truth value, an integer of the type's range for
every other primitive. These are the documents that describe a record. The record holds what they
say and nothing of the record that is read over; members that no field asks for make no difference.
-/

namespace WireRecords

namespace Json

def at? : Json → List String → Option Json
  | j, [] => some j
  | j, key :: keys => (j.member? key).bind fun m => m.at? keys

/-- Two objects, the same truth value, or the same integer in whatever storage. -/
inductive Alike : Json → Json → Prop where
  | objects (ms ms' : List (String × Json)) : Alike (object ms) (object ms')
  | truth (b : Bool) : Alike (bool b) (bool b)
  | integer {a b : Json} {n : Int} (left : a.integer? = some n) (right : b.integer? = some n) :
      Alike a b

/-- Whatever the first value holds, at any depth, the second one holds at the same place. -/
def Within (a b : Json) : Prop :=
  ∀ path m, a.at? path = some m → ∃ m', b.at? path = some m' ∧ m.Alike m'

theorem within_object {ms ms' : List (String × Json)}
    (h : ∀ key m, Entries.find? ms key = some m →
      ∃ m', Entries.find? ms' key = some m' ∧ m.Within m') :
    (object ms).Within (object ms') := by
  intro path m found
  cases path with
  | nil =>
    cases found
    exact ⟨object ms', rfl, .objects ms ms'⟩
  | cons key path =>
    obtain ⟨inner, at_key, found⟩ := Option.bind_eq_some_iff.mp found
    obtain ⟨inner', at_key', within⟩ := h key inner at_key
    obtain ⟨m', found', alike⟩ := within path m found
    exact ⟨m', Option.bind_eq_some_iff.mpr ⟨inner', at_key', found'⟩, alike⟩

theorem within_of_alike {a b : Json} (flat : ∀ key, a.member? key = none) (h : a.Alike b) :
    a.Within b := by
  intro path m found
  cases path with
  | nil =>
    cases found
    exact ⟨b, rfl, h⟩
  | cons key path =>
    rw [at?, flat key] at found
    cases found

theorem member?_of_integer? {j : Json} {n : Int} (h : j.integer? = some n) (key : String) :
    j.member? key = none := by
  cases j with
  | object ms => cases h
  | _ => rfl

end Json

/-- The members that a field of the primitive takes: a boolean for a truth value, an integer of the
type's range for everything else. -/
def Primitive.Takes (p : Primitive) (j : Json) : Prop :=
  if p = .boolean then ∃ b, j = .bool b
  else ∃ n, j.integer? = some n ∧ p.least ≤ n ∧ n ≤ p.greatest

namespace Scalar

variable {p : Primitive}

def SaidBy (v : Scalar p) (j : Json) : Prop :=
  if p = .boolean then j = .bool (v.val ≠ 0) else j.integer? = some v.val

theorem ofJson_boolean_eq_ok_iff {j : Json} {v : Scalar .boolean} :
    ofJson .boolean j = .ok v ↔ j = .bool (v.val ≠ 0) := by
  have low := v.least_le
  have high := v.le_greatest
  simp only [Primitive.least, Primitive.greatest] at low high
  constructor
  · intro h
    cases j with
    | bool b =>
      cases h
      cases b <;> rfl
    | _ => cases h
  · rintro rfl
    have two : v.val = 0 ∨ v.val = 1 := by omega
    rw [ofJson, Except.ok.injEq]
    apply Scalar.ext
    rcases two with h | h <;> rw [h] <;> rfl

theorem ofJson_eq_ok_iff {j : Json} {v : Scalar p} : ofJson p j = .ok v ↔ v.SaidBy j := by
  by_cases truth : p = .boolean
  · subst truth
    rw [SaidBy, if_pos rfl]
    exact ofJson_boolean_eq_ok_iff
  · rw [ofJson_of_ne_boolean truth, SaidBy, if_neg truth]
    exact integerOfJson_eq_ok_iff

theorem saidBy_toJson (v : Scalar p) : v.SaidBy v.toJson := ofJson_eq_ok_iff.mp v.ofJson_toJson

theorem takes_iff {j : Json} : p.Takes j ↔ ∃ v : Scalar p, v.SaidBy j := by
  by_cases truth : p = .boolean
  · subst truth
    simp only [Primitive.Takes, SaidBy, if_true]
    constructor
    · rintro ⟨b, rfl⟩
      exact ⟨ofBits .boolean b.toNat, by cases b <;> rfl⟩
    · rintro ⟨v, rfl⟩
      exact ⟨_, rfl⟩
  · simp only [Primitive.Takes, SaidBy, truth, if_false]
    constructor
    · rintro ⟨n, integer, low, high⟩
      exact ⟨⟨n, low, high⟩, integer⟩
    · rintro ⟨v, integer⟩
      exact ⟨v.val, integer, v.least_le, v.le_greatest⟩

theorem toJson_within {v : Scalar p} {j : Json} (h : v.SaidBy j) : v.toJson.Within j := by
  have own := v.saidBy_toJson
  by_cases truth : p = .boolean
  · simp only [SaidBy, truth, if_true] at h own
    rw [own, h]
    exact Json.within_of_alike (fun _ => rfl) (.truth _)
  · simp only [SaidBy, truth, if_false] at h own
    exact Json.within_of_alike (Json.member?_of_integer? own) (.integer own h)

end Scalar

namespace Schema

/-- An object with a member for every field, under the field's key: one that the field's type takes,
or for a nested record one that conforms to it. -/
inductive Conforms : Schema → Json → Prop where
  | object {s : Schema} {ms : List (String × Json)}
      (present : ∀ key ∈ s.keys, Entries.find? ms key ≠ none)
      (leaves : ∀ i key slot j, s.keys[i]? = some key → s.fieldAt? i = some (.inl slot) →
        Entries.find? ms key = some j → slot.type.Takes j)
      (nested : ∀ i key inner j, s.keys[i]? = some key → s.fieldAt? i = some (.inr inner) →
        Entries.find? ms key = some j → Conforms inner j) :
      Conforms s (.object ms)

def SaidBy : (s : Schema) → Nat → s.Record → List (String × Json) → Prop
  | nil, _, _, _ => True
  | leaf name _ rest, index, r, ms =>
    (∃ j, Entries.find? ms (fieldKey name index) = some j ∧ r.1.SaidBy j) ∧
      rest.SaidBy (index + 1) r.2 ms
  | group name inner rest, index, r, ms =>
    (∃ inside, Entries.find? ms (fieldKey name index) = some (.object inside) ∧
      inner.SaidBy 0 r.1 inside) ∧ rest.SaidBy (index + 1) r.2 ms

/-- Two lists of members that differ in nothing that a field asks for. -/
def SameFor : Schema → Nat → List (String × Json) → List (String × Json) → Prop
  | nil, _, _, _ => True
  | leaf name _ rest, index, ms, ms' =>
    Entries.find? ms (fieldKey name index) = Entries.find? ms' (fieldKey name index) ∧
      rest.SameFor (index + 1) ms ms'
  | group name inner rest, index, ms, ms' =>
    (Entries.find? ms (fieldKey name index) = Entries.find? ms' (fieldKey name index) ∨
      ∃ inside inside', Entries.find? ms (fieldKey name index) = some (.object inside) ∧
        Entries.find? ms' (fieldKey name index) = some (.object inside') ∧
        inner.SameFor 0 inside inside') ∧ rest.SameFor (index + 1) ms ms'

theorem map_pair_eq_ok_iff {α β : Type} {a : α} {x : Except CodecError β} {v : α × β} :
    (x.map fun tail => (a, tail)) = .ok v ↔ a = v.1 ∧ x = .ok v.2 := by
  cases x with
  | error e => simp [Except.map]
  | ok t => simp [Except.map, Prod.ext_iff]

theorem ofMembers_eq_ok_iff {s : Schema} {index : Nat} {ms : List (String × Json)} {v : s.Record}
    (path : FieldPath) (r : s.Record) :
    s.ofMembers index path ms r = .ok v ↔ s.SaidBy index v ms := by
  induction s generalizing index ms path with
  | nil => exact ⟨fun _ => trivial, fun _ => rfl⟩
  | leaf name slot rest ih =>
    rw [ofMembers, SaidBy]
    cases found : Entries.find? ms (fieldKey name index) with
    | none => simp
    | some j =>
      simp only [Option.some.injEq, exists_eq_left', ← Scalar.ofJson_eq_ok_iff]
      rw [← ih path r.2]
      cases Scalar.ofJson slot.type j with
      | error fault => simp
      | ok w =>
        rw [Except.ok.injEq]
        exact map_pair_eq_ok_iff
  | group name inner rest ih_inner ih_rest =>
    rw [ofMembers, SaidBy]
    cases found : Entries.find? ms (fieldKey name index) with
    | none => simp
    | some j =>
      cases j with
      | object inside =>
        simp only [Option.some.injEq, Json.object.injEq, exists_eq_left']
        rw [← ih_inner (path ++ [fieldKey name index]) r.1, ← ih_rest path r.2]
        cases inner.ofMembers 0 (path ++ [fieldKey name index]) inside r.1 with
        | error e => simp
        | ok w =>
          rw [Except.ok.injEq]
          exact map_pair_eq_ok_iff
      | _ => simp

def Fits (ms : List (String × Json)) (key : String) (field : Slot ⊕ Schema) : Prop :=
  ∃ j, Entries.find? ms key = some j ∧
    match field with
    | .inl slot => slot.type.Takes j
    | .inr inner => Conforms inner j

theorem exists_fieldAt? {s : Schema} {index i : Nat} {key : String}
    (h : (s.keysFrom index)[i]? = some key) : ∃ field, s.fieldAt? i = some field := by
  induction s generalizing index i with
  | nil => cases h
  | leaf name slot rest ih =>
    cases i with
    | zero => exact ⟨_, rfl⟩
    | succ i => exact ih h
  | group name inner rest _ ih =>
    cases i with
    | zero => exact ⟨_, rfl⟩
    | succ i => exact ih h

theorem conforms_object_iff {s : Schema} {ms : List (String × Json)} :
    Conforms s (.object ms) ↔
      ∀ i key field, s.keys[i]? = some key → s.fieldAt? i = some field → Fits ms key field := by
  constructor
  · rintro ⟨present, leaves, nested⟩ i key field at_key at_i
    obtain ⟨j, found⟩ := Option.ne_none_iff_exists'.mp (present key (List.mem_of_getElem? at_key))
    refine ⟨j, found, ?_⟩
    cases field with
    | inl slot => exact leaves i key slot j at_key at_i found
    | inr inner => exact nested i key inner j at_key at_i found
  · intro h
    refine .object ?_ ?_ ?_
    · intro key member
      obtain ⟨i, at_key⟩ := List.mem_iff_getElem?.mp member
      obtain ⟨field, at_i⟩ := exists_fieldAt? at_key
      obtain ⟨j, found, -⟩ := h i key field at_key at_i
      exact Option.ne_none_iff_exists'.mpr ⟨j, found⟩
    · intro i key slot j at_key at_i found
      obtain ⟨j', found', takes⟩ := h i key (.inl slot) at_key at_i
      rw [found] at found'
      cases found'
      exact takes
    · intro i key inner j at_key at_i found
      obtain ⟨j', found', conforms⟩ := h i key (.inr inner) at_key at_i
      rw [found] at found'
      cases found'
      exact conforms

theorem exists_saidBy_iff {s : Schema} {index : Nat} {ms : List (String × Json)} :
    (∃ v, s.SaidBy index v ms) ↔
      ∀ i key field, (s.keysFrom index)[i]? = some key → s.fieldAt? i = some field →
        Fits ms key field := by
  induction s generalizing index ms with
  | nil =>
    constructor
    · intro _ i key field at_key
      cases at_key
    · intro _
      exact ⟨(), trivial⟩
  | leaf name slot rest ih =>
    constructor
    · rintro ⟨v, ⟨j, found, said⟩, tail⟩ i key field at_key at_i
      cases i with
      | zero =>
        cases at_key
        cases at_i
        exact ⟨j, found, Scalar.takes_iff.mpr ⟨v.1, said⟩⟩
      | succ i => exact ih.mp ⟨v.2, tail⟩ i key field at_key at_i
    · intro h
      obtain ⟨j, found, takes⟩ := h 0 _ _ rfl rfl
      obtain ⟨x, said⟩ := Scalar.takes_iff.mp takes
      obtain ⟨r, tail⟩ := ih.mpr fun i => h (i + 1)
      exact ⟨(x, r), ⟨j, found, said⟩, tail⟩
  | group name inner rest ih_inner ih_rest =>
    constructor
    · rintro ⟨v, ⟨inside, found, said⟩, tail⟩ i key field at_key at_i
      cases i with
      | zero =>
        cases at_key
        cases at_i
        exact ⟨_, found, conforms_object_iff.mpr (ih_inner.mp ⟨v.1, said⟩)⟩
      | succ i => exact ih_rest.mp ⟨v.2, tail⟩ i key field at_key at_i
    · intro h
      obtain ⟨j, found, conforms⟩ := h 0 _ _ rfl rfl
      obtain ⟨inside, rfl⟩ : ∃ inside, j = .object inside := by
        cases conforms
        exact ⟨_, rfl⟩
      obtain ⟨x, said⟩ := ih_inner.mpr (conforms_object_iff.mp conforms)
      obtain ⟨r, tail⟩ := ih_rest.mpr fun i => h (i + 1)
      exact ⟨(x, r), ⟨inside, found, said⟩, tail⟩

theorem SameFor.refl (s : Schema) (index : Nat) (ms : List (String × Json)) :
    s.SameFor index ms ms := by
  induction s generalizing index with
  | nil => trivial
  | leaf name slot rest ih => exact ⟨rfl, ih (index + 1)⟩
  | group name inner rest _ ih => exact ⟨.inl rfl, ih (index + 1)⟩

theorem ofMembers_congr {s : Schema} {index : Nat} {ms ms' : List (String × Json)}
    (h : s.SameFor index ms ms') (path : FieldPath) (r r' : s.Record) :
    s.ofMembers index path ms r = s.ofMembers index path ms' r' := by
  induction s generalizing index path ms ms' with
  | nil => rfl
  | leaf name slot rest ih =>
    obtain ⟨same, tail⟩ := h
    rw [ofMembers, ofMembers, same, ih tail path r.2 r'.2]
  | group name inner rest ih_inner ih_rest =>
    obtain ⟨head, tail⟩ := h
    rw [ofMembers, ofMembers, ih_rest tail path r.2 r'.2]
    rcases head with same | ⟨inside, inside', found, found', below⟩
    · rw [same]
      split
      · rfl
      · rw [ih_inner (SameFor.refl inner 0 _) _ r.1 r'.1]
      · rfl
    · simp only [found, found', ih_inner below _ r.1 r'.1]

end Schema

namespace Schema.SaidBy

theorem get {s : Schema} {index : Nat} {v : s.Record} {ms : List (String × Json)}
    (h : s.SaidBy index v ms) (p : Place s) :
    ∃ m, (Json.object ms).at? (p.keysFrom index) = some m ∧ (p.get v).SaidBy m := by
  induction p generalizing index ms with
  | here =>
    obtain ⟨⟨j, found, said⟩, -⟩ := h
    exact ⟨j, Option.bind_eq_some_iff.mpr ⟨j, found, rfl⟩, said⟩
  | next p ih => exact ih h.2
  | inside p ih =>
    obtain ⟨⟨inside, found, said⟩, -⟩ := h
    obtain ⟨m, below, said⟩ := ih said
    exact ⟨m, Option.bind_eq_some_iff.mpr ⟨_, found, below⟩, said⟩
  | behind p ih => exact ih h.2

theorem memberList_within {s : Schema} {index : Nat} {v : s.Record} {ms : List (String × Json)}
    (h : s.SaidBy index v ms) {key : String} {j : Json} (own : (key, j) ∈ s.memberList index v) :
    ∃ m, Entries.find? ms key = some m ∧ j.Within m := by
  induction s generalizing index ms key j with
  | nil => cases own
  | leaf name slot rest ih =>
    obtain ⟨⟨m, found, said⟩, tail⟩ := h
    rcases List.mem_cons.mp own with head | own
    · cases head
      exact ⟨m, found, Scalar.toJson_within said⟩
    · exact ih tail own
  | group name inner rest ih_inner ih_rest =>
    obtain ⟨⟨inside, found, said⟩, tail⟩ := h
    rcases List.mem_cons.mp own with head | own
    · cases head
      refine ⟨_, found, Json.within_object ?_⟩
      intro key m at_key
      -- of the members that share a key, the one that stays is one of them
      exact ih_inner said (Entries.mem_of_find?_insertAll at_key)
    · exact ih_rest tail own

end Schema.SaidBy

namespace RecordType

variable {R : RecordType}

theorem ofJson_eq_ok_iff {j : Json} {v : R.Value} :
    R.ofJson j = .ok v ↔ ∃ ms, j = .object ms ∧ R.fields.SaidBy 0 v ms := by
  cases j with
  | object ms => simp [ofJson, Schema.ofMembers_eq_ok_iff]
  | _ => simp [ofJson]

theorem exists_ofJson_iff {j : Json} : (∃ v, R.ofJson j = .ok v) ↔ R.fields.Conforms j := by
  constructor
  · rintro ⟨v, h⟩
    obtain ⟨ms, rfl, said⟩ := ofJson_eq_ok_iff.mp h
    exact Schema.conforms_object_iff.mpr (Schema.exists_saidBy_iff.mp ⟨v, said⟩)
  · intro conforms
    obtain ⟨ms, rfl⟩ : ∃ ms, j = .object ms := by
      cases conforms
      exact ⟨_, rfl⟩
    obtain ⟨v, said⟩ := Schema.exists_saidBy_iff.mpr (Schema.conforms_object_iff.mp conforms)
    exact ⟨v, ofJson_eq_ok_iff.mpr ⟨ms, rfl, said⟩⟩

/-- The documents that describe a record are those that conform to its type. Every primitive field
then holds what the member at its place says, whatever a new record starts with, and all that the
view of the record holds is found in the document. Members that no field asks for change nothing,
neither the record nor the error. -/
theorem ofJson_conforming (R : RecordType) (j : Json) :
    ((∃ v, R.ofJson j = .ok v) ↔ R.fields.Conforms j) ∧
    (∀ v, R.ofJson j = .ok v →
      (∀ p : Schema.Place R.fields, ∃ m, j.at? p.keys = some m ∧ (p.get v).SaidBy m) ∧
        (R.toJson v).Within j) ∧
    (∀ r, RecordType.ofJson { R with initial := r } j = R.ofJson j) ∧
    ∀ ms ms', R.fields.SameFor 0 ms ms' → R.ofJson (.object ms) = R.ofJson (.object ms') := by
  refine ⟨exists_ofJson_iff, ?_, ?_, ?_⟩
  · intro v h
    obtain ⟨ms, rfl, said⟩ := ofJson_eq_ok_iff.mp h
    refine ⟨said.get, Json.within_object ?_⟩
    intro key m at_key
    exact said.memberList_within (Entries.mem_of_find?_insertAll at_key)
  · intro r
    cases j with
    | object ms => exact Schema.ofMembers_congr (Schema.SameFor.refl R.fields 0 ms) [] r R.initial
    | _ => rfl
  · intro ms ms' same
    exact Schema.ofMembers_congr same [] R.initial R.initial

/-- Two fields that share a key read one member, which must suit both: 255 in signed storage does,
and 256 is too much for the second one. -/
theorem ofJson_conforming_clash :
    let j : Json := .object [("1", .signed 255), ("x", .null)]
    Samples.clash.fields.Conforms j ∧
      ¬ Samples.clash.fields.Conforms (.object [("1", .unsigned 256)]) ∧
      ∃ v, Samples.clash.ofJson j = .ok v ∧ Schema.Record.leaves _ v = [255, 255] ∧
        (Samples.clash.toJson v).Within j := by
  intro j
  let v : Samples.clash.Value := (Scalar.ofBits _ 255, Scalar.ofBits _ 255, ())
  have read : Samples.clash.ofJson j = .ok v := by decide
  refine ⟨(ofJson_conforming Samples.clash j).1.mp ⟨v, read⟩, ?_, v, read, by decide, ?_⟩
  · rw [← (ofJson_conforming Samples.clash _).1]
    rintro ⟨w, read⟩
    have refused : Samples.clash.ofJson (.object [("1", .unsigned 256)]) =
        .error (.invalidField "1" (.aboveRange 256)) := by decide
    rw [refused] at read
    cases read
  · exact ((ofJson_conforming Samples.clash j).2.1 v read).2

end RecordType

end WireRecords
