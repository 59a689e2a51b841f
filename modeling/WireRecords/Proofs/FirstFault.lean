import WireRecords.Proofs.Conformance

/-!
# The first fault

A document is read in depth-first declaration order: a nested record before its fields, and these
before the next field. The error names the first place in this order whose member is missing, of the
wrong kind or out of range, by the keys on the way down to it.
-/

namespace WireRecords

namespace Schema

def placesFrom : Schema → FieldPath → Nat → List (FieldPath × (Slot ⊕ Schema))
  | nil, _, _ => []
  | leaf name slot rest, path, index =>
    (path ++ [fieldKey name index], .inl slot) :: rest.placesFrom path (index + 1)
  | group name inner rest, path, index =>
    (path ++ [fieldKey name index], .inr inner) ::
      (inner.placesFrom (path ++ [fieldKey name index]) 0 ++ rest.placesFrom path (index + 1))

def places (s : Schema) : List (FieldPath × (Slot ⊕ Schema)) := ([], .inr s) :: s.placesFrom [] 0

/-- What a place asks of the value that is found there, apart from the places below it. -/
def Suits : Slot ⊕ Schema → Option Json → Prop
  | _, none => False
  | .inl slot, some m => slot.type.Takes m
  | .inr _, some m => ∃ ms, m = .object ms

/-- What is wrong with the value that is found at a place, or with there being none. -/
inductive Misfit : Slot ⊕ Schema → Option Json → FieldFault → Prop where
  | missing {field} : Misfit field none .missing
  | notObject {inner m} (kind : ∀ ms, m ≠ .object ms) :
      Misfit (.inr inner) (some m) .expectedObject
  | notBoolean {slot m} (truth : slot.type = .boolean) (kind : ∀ b, m ≠ .bool b) :
      Misfit (.inl slot) (some m) .expectedBoolean
  | notInteger {slot m} (other : slot.type ≠ .boolean) (kind : m.integer? = none) :
      Misfit (.inl slot) (some m) .expectedInteger
  | aboveRange {slot n} (other : slot.type ≠ .boolean) (above : slot.type.greatest < n.toNat) :
      Misfit (.inl slot) (some (.unsigned n)) (.aboveRange n.toNat)
  | outsideRange {slot n} (other : slot.type ≠ .boolean)
      (outside : n.toInt < slot.type.least ∨ slot.type.greatest < n.toInt) :
      Misfit (.inl slot) (some (.signed n)) (.outsideRange n.toInt)

theorem Misfit.not_suits {field : Slot ⊕ Schema} {found : Option Json} {fault : FieldFault}
    (h : Misfit field found fault) : ¬ Suits field found := by
  cases h with
  | missing => cases field <;> exact id
  | notObject kind =>
    rintro ⟨ms, h⟩
    exact kind ms h
  | notBoolean truth kind =>
    rw [Suits, Primitive.Takes, if_pos truth]
    rintro ⟨b, h⟩
    exact kind b h
  | notInteger other kind =>
    rw [Suits, Primitive.Takes, if_neg other, kind]
    rintro ⟨n, h, -⟩
    cases h
  | aboveRange other above =>
    rw [Suits, Primitive.Takes, if_neg other, Json.integer?]
    rintro ⟨n, h, low, high⟩
    cases h
    omega
  | outsideRange other outside =>
    rw [Suits, Primitive.Takes, if_neg other, Json.integer?]
    rintro ⟨n, h, low, high⟩
    cases h
    omega

/-- What is said about the value that is found at a place, behind the name of the place. -/
inductive Complaint : Slot ⊕ Schema → Option Json → String → Prop where
  | missing {field} : Complaint field none ": missing"
  | notObject {inner m} (kind : ∀ ms, m ≠ .object ms) :
      Complaint (.inr inner) (some m) ": expected an object"
  | notBoolean {slot m} (truth : slot.type = .boolean) (kind : ∀ b, m ≠ .bool b) :
      Complaint (.inl slot) (some m) ": expected a boolean"
  | notInteger {slot m} (other : slot.type ≠ .boolean) (kind : m.integer? = none) :
      Complaint (.inl slot) (some m) ": expected an integer"
  | aboveRange {slot n} (other : slot.type ≠ .boolean) (above : slot.type.greatest < n.toNat) :
      Complaint (.inl slot) (some (.unsigned n)) (": value " ++ toString n.toNat ++ " out of range")
  | outsideRange {slot n} (other : slot.type ≠ .boolean)
      (outside : n.toInt < slot.type.least ∨ slot.type.greatest < n.toInt) :
      Complaint (.inl slot) (some (.signed n)) (" value: " ++ toString n.toInt)

theorem Misfit.complaint {field : Slot ⊕ Schema} {found : Option Json} {fault : FieldFault}
    (h : Misfit field found fault) : Complaint field found fault.text := by
  cases h with
  | missing => exact .missing
  | notObject kind => exact .notObject kind
  | notBoolean truth kind => exact .notBoolean truth kind
  | notInteger other kind => exact .notInteger other kind
  | aboveRange other above => exact .aboveRange other above
  | outsideRange other outside => exact .outsideRange other outside

/-- The first of the places whose value does not suit, and what is wrong there. -/
inductive FirstFault (j : Json) :
    List (FieldPath × (Slot ⊕ Schema)) → FieldPath → FieldFault → Prop where
  | here {path field fault places} (misfit : Misfit field (j.at? path) fault) :
      FirstFault j ((path, field) :: places) path fault
  | later {place places path fault} (suits : Suits place.2 (j.at? place.1))
      (behind : FirstFault j places path fault) : FirstFault j (place :: places) path fault

namespace FirstFault

variable {j : Json} {places more : List (FieldPath × (Slot ⊕ Schema))} {path : FieldPath}
  {fault : FieldFault}

theorem append_left (h : FirstFault j places path fault) :
    FirstFault j (places ++ more) path fault := by
  induction h with
  | here misfit => exact .here misfit
  | later suits _ ih => exact .later suits ih

theorem append_right (suit : ∀ place ∈ places, Suits place.2 (j.at? place.1))
    (h : FirstFault j more path fault) : FirstFault j (places ++ more) path fault := by
  induction places with
  | nil => exact h
  | cons place places ih =>
    rw [List.forall_mem_cons] at suit
    exact .later suit.1 (ih suit.2)

theorem exists_split (h : FirstFault j places path fault) :
    ∃ before field after, places = before ++ (path, field) :: after ∧
      Misfit field (j.at? path) fault ∧ ∀ place ∈ before, Suits place.2 (j.at? place.1) := by
  induction h with
  | here misfit => exact ⟨[], _, _, rfl, misfit, List.forall_mem_nil _⟩
  | later suits _ ih =>
    obtain ⟨before, field, after, rfl, misfit, suit⟩ := ih
    exact ⟨_ :: before, field, after, rfl, misfit, List.forall_mem_cons.mpr ⟨suits, suit⟩⟩

end FirstFault

end Schema

theorem Json.at?_concat {j : Json} {path : FieldPath} {ms : List (String × Json)}
    (h : j.at? path = some (.object ms)) (key : String) :
    j.at? (path ++ [key]) = Entries.find? ms key := by
  induction path generalizing j with
  | nil =>
    cases h
    exact Option.bind_fun_some _
  | cons first path ih =>
    obtain ⟨inner, at_first, below⟩ := Option.bind_eq_some_iff.mp h
    rw [List.cons_append, at?, at_first]
    exact ih below

namespace Scalar

variable {p : Primitive}

theorem misfit_of_ofJson {slot : Slot} {m : Json} {fault : FieldFault}
    (h : ofJson slot.type m = .error fault) : Schema.Misfit (.inl slot) (some m) fault := by
  by_cases truth : slot.type = .boolean
  · rw [truth] at h
    cases m with
    | bool b => cases h
    | _ =>
      cases h
      exact .notBoolean truth (by simp)
  · rw [ofJson_of_ne_boolean truth] at h
    cases m with
    | unsigned n =>
      rw [integerOfJson_unsigned] at h
      split at h
      · cases h
      · next refused =>
        cases h
        have least := slot.type.least_le_zero
        have outside := ofInt?_eq_none_iff.mp refused
        exact .aboveRange truth (by omega)
    | signed n =>
      rw [integerOfJson_signed] at h
      split at h
      · cases h
      · next refused =>
        cases h
        exact .outsideRange truth (ofInt?_eq_none_iff.mp refused)
    | _ =>
      cases h
      exact .notInteger truth rfl

end Scalar

namespace Schema

variable {s : Schema} {j : Json} {path : FieldPath} {ms : List (String × Json)}

theorem SaidBy.suits {index : Nat} {v : s.Record} (at_path : j.at? path = some (.object ms))
    (h : s.SaidBy index v ms) :
    ∀ place ∈ s.placesFrom path index, Suits place.2 (j.at? place.1) := by
  induction s generalizing index path ms with
  | nil => exact List.forall_mem_nil _
  | leaf name slot rest ih =>
    obtain ⟨⟨m, found, said⟩, tail⟩ := h
    refine List.forall_mem_cons.mpr ⟨?_, ih at_path tail⟩
    rw [Json.at?_concat at_path, found]
    exact Scalar.takes_iff.mpr ⟨v.1, said⟩
  | group name inner rest ih_inner ih_rest =>
    obtain ⟨⟨inside, found, said⟩, tail⟩ := h
    have at_field := Json.at?_concat at_path (fieldKey name index)
    rw [found] at at_field
    refine List.forall_mem_cons.mpr ⟨?_, List.forall_mem_append.mpr ⟨?_, ih_rest at_path tail⟩⟩
    · rw [at_field]
      exact ⟨inside, rfl⟩
    · exact ih_inner at_field said

theorem map_eq_error_iff {α β : Type} {f : α → β} {x : Except CodecError α} {e : CodecError} :
    x.map f = .error e ↔ x = .error e := by
  cases x <;> simp [Except.map]

theorem firstFault_of_ofMembers {index : Nat} {r : s.Record} {e : CodecError}
    (at_path : j.at? path = some (.object ms)) (h : s.ofMembers index path ms r = .error e) :
    ∃ p fault, FirstFault j (s.placesFrom path index) p fault ∧
      e = .invalidField (FieldPath.text p) fault := by
  induction s generalizing index path ms with
  | nil => cases h
  | leaf name slot rest ih =>
    have at_field := Json.at?_concat at_path (fieldKey name index)
    rw [ofMembers] at h
    cases found : Entries.find? ms (fieldKey name index) with
    | none =>
      rw [found] at h at_field
      cases h
      exact ⟨_, _, .here (at_field ▸ .missing), rfl⟩
    | some m =>
      rw [found] at h at_field
      cases read : Scalar.ofJson slot.type m with
      | error fault =>
        simp only [read] at h
        cases h
        exact ⟨_, _, .here (at_field ▸ Scalar.misfit_of_ofJson read), rfl⟩
      | ok v =>
        simp only [read] at h
        have suits : slot.type.Takes m := Scalar.takes_iff.mpr ⟨v, Scalar.ofJson_eq_ok_iff.mp read⟩
        obtain ⟨p, fault, first, eq⟩ := ih at_path (map_eq_error_iff.mp h)
        exact ⟨p, fault, .later (at_field ▸ suits) first, eq⟩
  | group name inner rest ih_inner ih_rest =>
    have at_field := Json.at?_concat at_path (fieldKey name index)
    rw [ofMembers] at h
    cases found : Entries.find? ms (fieldKey name index) with
    | none =>
      rw [found] at h at_field
      cases h
      exact ⟨_, _, .here (at_field ▸ .missing), rfl⟩
    | some m =>
      rw [found] at h at_field
      cases m with
      | object inside =>
        -- the fault is inside the nested record, or that is fine and it is behind
        have suits : Suits (.inr inner) (some (.object inside)) := ⟨inside, rfl⟩
        cases read : inner.ofMembers 0 (path ++ [fieldKey name index]) inside r.1 with
        | error e' =>
          simp only [read] at h
          cases h
          obtain ⟨p, fault, first, eq⟩ := ih_inner at_field read
          exact ⟨p, fault, .later (at_field ▸ suits) first.append_left, eq⟩
        | ok v =>
          simp only [read] at h
          obtain ⟨p, fault, first, eq⟩ := ih_rest at_path (map_eq_error_iff.mp h)
          have within := ((ofMembers_eq_ok_iff _ r.1).mp read).suits at_field
          exact ⟨p, fault, .later (at_field ▸ suits) (first.append_right within), eq⟩
      | _ =>
        cases h
        exact ⟨_, _, .here (at_field ▸ .notObject (by simp)), rfl⟩

end Schema

namespace RecordType

variable {R : RecordType} {j : Json}

theorem suits_of_ofJson {v : R.Value} (h : R.ofJson j = .ok v) :
    ∀ place ∈ R.fields.places, Schema.Suits place.2 (j.at? place.1) := by
  obtain ⟨ms, rfl, said⟩ := ofJson_eq_ok_iff.mp h
  exact List.forall_mem_cons.mpr ⟨⟨ms, rfl⟩, said.suits rfl⟩

theorem firstFault_of_ofJson {e : CodecError} (h : R.ofJson j = .error e) :
    ∃ path fault, Schema.FirstFault j R.fields.places path fault ∧
      e = .invalidField (FieldPath.text path) fault := by
  cases j with
  | object ms =>
    obtain ⟨path, fault, first, eq⟩ := Schema.firstFault_of_ofMembers (j := .object ms) rfl h
    exact ⟨path, fault, .later ⟨ms, rfl⟩ first, eq⟩
  | _ =>
    cases h
    exact ⟨[], _, .here (.notObject (by simp)), rfl⟩

/-- A document conforms if every place finds what it asks for. The error about one that does not is
about the first place, in depth-first declaration order, that finds nothing or the wrong thing: it
names the keys on the way down and says what is wrong there, and every earlier place is fine. -/
theorem ofJson_names_first_fault (R : RecordType) (j : Json) :
    (R.fields.Conforms j ↔ ∀ place ∈ R.fields.places, Schema.Suits place.2 (j.at? place.1)) ∧
    (¬ R.fields.Conforms j →
      ∃ before path field after fault complaint,
        R.fields.places = before ++ (path, field) :: after ∧
        (∀ place ∈ before, Schema.Suits place.2 (j.at? place.1)) ∧
        Schema.Misfit field (j.at? path) fault ∧ Schema.Complaint field (j.at? path) complaint ∧
        let name := if path = [] then "<root>" else ".".intercalate path
        R.ofJson j = .error (.invalidField name fault) ∧
        (CodecError.invalidField name fault).text =
          "PacketError: Invalid field '" ++ name ++ "'" ++ complaint) := by
  have reported (h : ¬ R.fields.Conforms j) :
      ∃ path fault, Schema.FirstFault j R.fields.places path fault ∧
        R.ofJson j = .error (.invalidField (FieldPath.text path) fault) := by
    cases read : R.ofJson j with
    | ok v => exact absurd (exists_ofJson_iff.mp ⟨v, read⟩) h
    | error e =>
      obtain ⟨path, fault, first, rfl⟩ := firstFault_of_ofJson read
      exact ⟨path, fault, first, rfl⟩
  refine ⟨⟨?_, ?_⟩, ?_⟩
  · intro conforms
    obtain ⟨v, read⟩ := exists_ofJson_iff.mpr conforms
    exact suits_of_ofJson read
  · intro suit
    by_contra h
    obtain ⟨path, fault, first, -⟩ := reported h
    obtain ⟨before, field, after, split, misfit, -⟩ := first.exists_split
    exact misfit.not_suits (suit (path, field) (by rw [split]; simp))
  · intro h
    obtain ⟨path, fault, first, error⟩ := reported h
    obtain ⟨before, field, after, split, misfit, suit⟩ := first.exists_split
    exact ⟨before, path, field, after, fault, _, split, suit, misfit, misfit.complaint, error, rfl⟩

/-- The value of `to.x` is too large, so neither `to.y` nor the missing `length` is reported. A
negative value is reported with its sign, and a document that is no object under a name of its
own. -/
theorem ofJson_names_first_fault_segment :
    let j : Json := .object [("from", .object [("x", .unsigned 1), ("y", .signed (-2))]),
      ("tag", .unsigned 1), ("to", .object [("x", .unsigned 32768), ("y", .bool true)])]
    ¬ Samples.segment.fields.Conforms j ∧
      (∃ before path field after, Samples.segment.fields.places = before ++ (path, field) :: after ∧
        FieldPath.text path = "to.x" ∧ Schema.Misfit field (j.at? path) (.aboveRange 32768) ∧
        (∀ place ∈ before, Schema.Suits place.2 (j.at? place.1)) ∧
        Schema.Complaint field (j.at? path) ": value 32768 out of range") ∧
      (CodecError.invalidField "to.x" (.aboveRange 32768)).text =
        "PacketError: Invalid field 'to.x': value 32768 out of range" ∧
      Samples.segment.ofJson (.object [("tag", .signed (-1))]) =
        .error (.invalidField "tag" (.outsideRange (-1))) ∧
      (CodecError.invalidField "tag" (.outsideRange (-1))).text =
        "PacketError: Invalid field 'tag' value: -1" ∧
      Samples.segment.ofJson (.unsigned 1) = .error (.invalidField "<root>" .expectedObject) ∧
      (CodecError.invalidField "<root>" .expectedObject).text =
        "PacketError: Invalid field '<root>': expected an object" := by
  intro j
  have refused : Samples.segment.ofJson j = .error (.invalidField "to.x" (.aboveRange 32768)) := by
    decide
  have misfit : ¬ Samples.segment.fields.Conforms j := by
    rw [← exists_ofJson_iff]
    rintro ⟨v, read⟩
    rw [refused] at read
    cases read
  obtain ⟨before, path, field, after, fault, complaint, split, suit, at_fault, said, error, text⟩ :=
    (ofJson_names_first_fault Samples.segment j).2 misfit
  rw [refused, Except.error.injEq, CodecError.invalidField.injEq] at error
  obtain ⟨named, rfl⟩ := error
  have wording : (CodecError.invalidField "to.x" (.aboveRange 32768)).text =
      "PacketError: Invalid field '" ++ "to.x" ++ "'" ++ ": value 32768 out of range" := by decide
  rw [← named, wording, String.append_right_inj] at text
  rw [← text] at said
  refine ⟨misfit, ⟨before, path, field, after, split, named.symm, at_fault, suit, said⟩, ?_⟩
  decide

end RecordType

end WireRecords
