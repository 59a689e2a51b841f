import WireRecords.Proofs.JsonText
import WireRecords.Proofs.LastWriter

/-!
# Dumped settings are loaded back

A dump has one member per key, with the dots of the key inside its name, so loading it nests nothing
and gives every key its value back. Only NaN and the infinities are lost: they have no numeral, and
no document gives one.
-/

namespace WireRecords

namespace Setting

/-- The setting is no double, or a finite one. -/
def Finite : Setting → Prop
  | double x => x.isFinite = true
  | _ => True

instance : DecidablePred Finite
  | double x => inferInstanceAs (Decidable (x.isFinite = true))
  | text _ | int _ | bool _ | list _ => .isTrue trivial

theorem Finite.plain_toJson {value : Setting} (finite : value.Finite) : value.toJson.Plain := by
  cases value with
  | text s => exact .string s
  | int n => exact .signed n
  | double x => exact .float finite
  | bool b => exact .bool b
  | list items =>
    apply Json.Plain.array
    intro j member
    obtain ⟨s, -, rfl⟩ := List.mem_map.mp member
    exact .string s

theorem normalItems_strings (items : List String) :
    Json.normalItems (items.map .string) = items.map .string := by
  induction items with
  | nil => rfl
  | cons s items ih =>
    rw [List.map_cons, Json.normalItems, ih]
    rfl

theorem ofJson?_normal_toJson (value : Setting) : ofJson? value.toJson.normal = some value := by
  cases value with
  | text s => rfl
  | int n =>
    have low := n.le_toInt
    have high := n.toInt_lt
    rw [toJson, Json.normal]
    split
    · rfl
    · next nonneg =>
      have back : (UInt64.ofNat n.toInt.natAbs).toNat = n.toInt.natAbs :=
        UInt64.toNat_ofNat_of_lt' (Nat.lt_of_lt_of_le (m := 2 ^ 63) (by omega) (by decide))
      have same : Int64.ofNat n.toInt.natAbs = n := by
        rw [← Int64.ofInt_eq_ofNat, Int.natAbs_of_nonneg (by omega), Int64.ofInt_toInt]
      rw [ofJson?, back, if_pos (by omega), same]
  | double x => rfl
  | bool b => rfl
  | list items =>
    have texts : (items.map Json.string).map itemText = items := by
      rw [List.map_map]
      exact List.map_id items
    rw [toJson, Json.normal, normalItems_strings, ofJson?, texts]

end Setting

namespace Settings

def Finite (s : Settings) : Prop := ∀ key value, s.get? key = some value → value.Finite

theorem flattenMember_of_flat {j : Json} (flat : ∀ ms, j ≠ .object ms) (key : String) :
    flattenMember key j = (Setting.ofJson? j).toList.map fun value => (key, value) := by
  cases j with
  | object ms => exact absurd rfl (flat ms)
  | _ => rfl

theorem flattenMember_of_ofJson? {j : Json} {value : Setting} (h : Setting.ofJson? j = some value)
    (key : String) : flattenMember key j = [(key, value)] := by
  have flat : ∀ ms, j ≠ .object ms := by
    rintro ms rfl
    cases h
  rw [flattenMember_of_flat flat, h]
  rfl

theorem flattenMembers_dump (es : List (String × Setting)) :
    flattenMembers "" (Json.normalMembers (es.map fun e => (e.1, e.2.toJson))) = es := by
  induction es with
  | nil => rfl
  | cons e es ih =>
    rw [List.map_cons, Json.normalMembers, flattenMembers, ih,
      flattenMember_of_ofJson? e.2.ofJson?_normal_toJson]
    rfl

theorem documentMembers?_toJsonText {s : Settings} (finite : s.Finite) :
    documentMembers? s.toJsonText =
      some (Json.normalMembers (s.values.entries.map fun e => (e.1, e.2.toJson))) := by
  have sorted : Entries.Sorted (s.values.entries.map fun e => (e.1, e.2.toJson)) :=
    List.pairwise_map.mpr s.values.sorted
  have plain : (Json.object (s.values.entries.map fun e => (e.1, e.2.toJson))).Plain := by
    apply Json.Plain.object sorted
    intro m member
    obtain ⟨e, stored, rfl⟩ := List.mem_map.mp member
    have found := Entries.find?_of_mem s.values.sorted.nodup_keys stored
    exact (finite e.1 e.2 found).plain_toJson
  have text : s.toJsonText = String.ofList
      ((Json.object (s.values.entries.map fun e => (e.1, e.2.toJson))).render none 0 ++ []) := by
    rw [List.append_nil, ← Json.ofMembers_of_sorted sorted]
    rfl
  rw [documentMembers?, text, plain.parse?_render none rfl, Json.normal]

theorem loadJson?_toJsonText (t : Settings) {s : Settings} (finite : s.Finite) :
    t.loadJson? s.toJsonText = some (t.setAll s.values.entries) := by
  rw [loadJson?, documentMembers?_toJsonText finite, Option.map_some, flattenMembers_dump]

/-- The values inside a value that are no objects themselves, under their dotted keys. -/
inductive Leaf : String → Json → String → Json → Prop where
  | here {key : String} {j : Json} (flat : ∀ ms, j ≠ .object ms) : Leaf key j key j
  | inside {parent name key : String} {ms : List (String × Json)} {j leaf : Json}
      (member : (name, j) ∈ ms) (deeper : Leaf (dottedKey parent name) j key leaf) :
      Leaf parent (.object ms) key leaf

variable {parent name key : String} {value : Setting}

theorem leaf_of_flat_iff {j leaf : Json} (flat : ∀ ms, j ≠ .object ms) :
    Leaf parent j key leaf ↔ key = parent ∧ leaf = j := by
  constructor
  · intro h
    cases h with
    | here _ => exact ⟨rfl, rfl⟩
    | inside _ _ => exact absurd rfl (flat _)
  · rintro ⟨rfl, rfl⟩
    exact .here flat

theorem leaf_nil_iff {leaf : Json} : Leaf parent (.object []) key leaf ↔ False := by
  constructor
  · intro h
    cases h with
    | here flat => exact flat _ rfl
    | inside member _ => cases member
  · exact False.elim

theorem leaf_cons_iff {j leaf : Json} {ms : List (String × Json)} :
    Leaf parent (.object ((name, j) :: ms)) key leaf ↔
      Leaf (dottedKey parent name) j key leaf ∨ Leaf parent (.object ms) key leaf := by
  constructor
  · intro h
    cases h with
    | here flat => exact absurd rfl (flat _)
    | inside member deeper =>
      rcases List.mem_cons.mp member with same | member
      · cases same
        exact .inl deeper
      · exact .inr (.inside member deeper)
  · rintro (deeper | other)
    · exact .inside List.mem_cons_self deeper
    · cases other with
      | here flat => exact absurd rfl (flat _)
      | inside member deeper => exact .inside (List.mem_cons_of_mem _ member) deeper

theorem mem_flattenMember_of_flat {j : Json} (flat : ∀ ms, j ≠ .object ms) :
    (key, value) ∈ flattenMember parent j ↔
      ∃ leaf, Leaf parent j key leaf ∧ Setting.ofJson? leaf = some value := by
  simp only [flattenMember_of_flat flat, leaf_of_flat_iff flat, List.mem_map, Option.mem_toList]
  constructor
  · rintro ⟨_, given, same⟩
    cases same
    exact ⟨j, ⟨rfl, rfl⟩, given⟩
  · rintro ⟨_, ⟨rfl, rfl⟩, given⟩
    exact ⟨value, given, rfl⟩

mutual

theorem mem_flattenMember_iff (parent : String) : ∀ j : Json,
    (key, value) ∈ flattenMember parent j ↔
      ∃ leaf, Leaf parent j key leaf ∧ Setting.ofJson? leaf = some value
  | .object ms => mem_flattenMembers_iff parent ms
  | .null | .bool _ | .unsigned _ | .signed _ | .float _ | .string _ | .array _ =>
    mem_flattenMember_of_flat (by rintro _ ⟨⟩)

theorem mem_flattenMembers_iff (parent : String) : ∀ ms : List (String × Json),
    (key, value) ∈ flattenMembers parent ms ↔
      ∃ leaf, Leaf parent (.object ms) key leaf ∧ Setting.ofJson? leaf = some value
  | [] => by simp only [flattenMembers, leaf_nil_iff, List.not_mem_nil, false_and, exists_false]
  | (name, j) :: ms => by
    rw [flattenMembers, List.mem_append, mem_flattenMember_iff (dottedKey parent name) j,
      mem_flattenMembers_iff parent ms, ← exists_or]
    simp only [leaf_cons_iff, or_and_right]

end

theorem Leaf.plain {j leaf : Json} (h : Leaf parent j key leaf) (plain : j.Plain) :
    leaf.Plain := by
  induction h with
  | here _ => exact plain
  | inside member _ ih =>
    cases plain with
    | object _ members => exact ih (members _ member)

theorem finite_of_ofJson? {leaf : Json} (plain : leaf.Plain)
    (given : Setting.ofJson? leaf = some value) : value.Finite := by
  cases plain with
  | float finite =>
    cases given
    exact finite
  | unsigned n =>
    rw [Setting.ofJson?] at given
    split at given <;> cases given <;> trivial
  | _ => cases given <;> trivial

theorem plain_of_documentMembers? {text : String} {ms : List (String × Json)}
    (h : documentMembers? text = some ms) : (Json.object ms).Plain := by
  rw [documentMembers?] at h
  split at h
  · next read =>
    cases h
    exact Json.plain_of_parse? read
  · cases h

theorem finite_empty : empty.Finite := by
  intro key value found
  cases found

theorem Finite.setAll {s : Settings} (finite : s.Finite) {es : List (String × Setting)}
    (finite' : ∀ e ∈ es, e.2.Finite) : (s.setAll es).Finite := by
  intro key value found
  rw [get?_setAll] at found
  rcases Option.or_eq_some_iff.mp found with last | ⟨-, before⟩
  · exact finite' _ (List.mem_reverse.mp (Entries.mem_of_find? last))
  · exact finite key value before

theorem finite_flattenMembers {text : String} {ms : List (String × Json)}
    (h : documentMembers? text = some ms) : ∀ e ∈ flattenMembers "" ms, e.2.Finite := by
  intro e member
  obtain ⟨leaf, inside, given⟩ := (mem_flattenMembers_iff "" ms).mp member
  exact finite_of_ofJson? (inside.plain (plain_of_documentMembers? h)) given

/-- A key that a document gives to one integer only has the digits of the integer as its text, if it
is beyond the signed range. -/
theorem get?_setAll_large (s : Settings) {ms : List (String × Json)} {n : UInt64}
    (leaf : Leaf "" (.object ms) key (.unsigned n)) (large : Int64.maxValue.toInt < n.toNat)
    (only : ∀ other, Leaf "" (.object ms) key other → other = .unsigned n ∨ other = .null) :
    (s.setAll (flattenMembers "" ms)).get? key = some (.text (toString n.toNat)) := by
  have beyond : ¬ n.toNat < 1 <<< 63 := by
    have most : Int64.maxValue.toInt = 2 ^ 63 - 1 := by decide
    omega
  have kept : Setting.ofJson? (.unsigned n) = some (.text (toString n.toNat)) := by
    rw [Setting.ofJson?, if_neg beyond]
    rfl
  have given : (key, Setting.text (toString n.toNat)) ∈ flattenMembers "" ms :=
    (mem_flattenMembers_iff "" ms).mpr ⟨_, leaf, kept⟩
  have found : Entries.find? (flattenMembers "" ms).reverse key =
      some (.text (toString n.toNat)) := by
    apply Entries.find?_of_unique (List.mem_reverse.mpr given)
    intro other member
    obtain ⟨leaf', inside, given'⟩ := (mem_flattenMembers_iff "" ms).mp (List.mem_reverse.mp member)
    rcases only leaf' inside with rfl | rfl
    · exact Option.some.inj (given'.symm.trans kept)
    · cases given'
  rw [get?_setAll, found, Option.some_or]

theorem setAll_own (s : Settings) : s.setAll s.values.entries = s := by
  have same : s.values.insertAll s.values.entries = s.values := by
    apply KeyMap.ext_get?
    intro key
    rw [KeyMap.get?_insertAll_entries, Option.or_self]
  rw [setAll, same]

theorem empty_setAll (s : Settings) : empty.setAll s.values.entries = { values := s.values } := by
  have same : KeyMap.empty.insertAll s.values.entries = s.values := by
    apply KeyMap.ext_get?
    intro key
    rw [KeyMap.get?_insertAll_entries, KeyMap.get?_empty, Option.or_none]
  rw [setAll, empty, same]

/-- A dump gives all settings as they are to empty ones, and changes nothing where it comes from.
Once a document has been loaded, dumping and loading changes nothing any more; an integer beyond the
signed range stays the text that it was loaded as. -/
theorem reload_lossless {s : Settings} (finite : s.Finite) :
    empty.loadJson? s.toJsonText = some { values := s.values } ∧
    s.loadJson? s.toJsonText = some s ∧
    ∀ text ms, documentMembers? text = some ms → ∃ loaded, s.loadJson? text = some loaded ∧
      empty.loadJson? loaded.toJsonText = some { values := loaded.values } ∧
      loaded.loadJson? loaded.toJsonText = some loaded ∧
      ∀ key n, Leaf "" (.object ms) key (.unsigned n) → Int64.maxValue.toInt < n.toNat →
        (∀ other, Leaf "" (.object ms) key other → other = .unsigned n ∨ other = .null) →
          loaded.get? key = some (.text (toString n.toNat)) := by
  have lossless {s : Settings} (finite : s.Finite) :
      empty.loadJson? s.toJsonText = some { values := s.values } ∧
        s.loadJson? s.toJsonText = some s := by
    rw [loadJson?_toJsonText empty finite, loadJson?_toJsonText s finite, empty_setAll, setAll_own]
    exact ⟨rfl, rfl⟩
  obtain ⟨fresh, same⟩ := lossless finite
  refine ⟨fresh, same, ?_⟩
  intro text ms document
  have finite' := finite.setAll (finite_flattenMembers document)
  obtain ⟨fresh', same'⟩ := lossless finite'
  refine ⟨_, ?_, fresh', same', ?_⟩
  · rw [loadJson?, document, Option.map_some]
  · intro key n leaf large only
    exact get?_setAll_large s leaf large only

/-- Keys with dots and without any, one inside another, a negative zero, and a document that has an
integer beyond the signed range and a null under one key. -/
theorem reload_lossless_dotted :
    let s := empty.setAll [("", .int (-1)), ("a", .double ⟨0x8000000000000000⟩),
      ("a.b", .list ["x", "y,z"]), ("a.b.", .bool false), ("n", .int Int64.maxValue)]
    let text := "\x7b\"a\":\x7b\"b\":18446744073709551615\x7d,\"a.b\":null\x7d"
    empty.loadJson? s.toJsonText = some { values := s.values } ∧
      s.loadJson? s.toJsonText = some s ∧
      ∃ loaded, s.loadJson? text = some loaded ∧ loaded.loadJson? loaded.toJsonText = some loaded ∧
        loaded.get? "a.b" = some (.text "18446744073709551615") := by
  intro s text
  have finite : s.Finite := finite_empty.setAll (by decide)
  let ms : List (String × Json) :=
    [("a", .object [("b", .unsigned 18446744073709551615)]), ("a.b", .null)]
  have document : documentMembers? text = some ms := by
    have inner : (Json.object [("b", .unsigned 18446744073709551615)]).Plain :=
      .object (List.pairwise_singleton _ _) (List.forall_mem_singleton.mpr (.unsigned _))
    have sorted : Entries.Sorted ms := List.pairwise_pair.mpr (by decide)
    have plain : (Json.object ms).Plain :=
      .object sorted (List.forall_mem_cons.mpr ⟨inner, List.forall_mem_singleton.mpr .null⟩)
    have same : text = String.ofList ((Json.object ms).render none 0 ++ []) := by decide +kernel
    rw [documentMembers?, same, plain.parse?_render none rfl]
    rfl
  obtain ⟨fresh, same, documents⟩ := reload_lossless finite
  obtain ⟨loaded, load, -, same', large⟩ := documents text _ document
  refine ⟨fresh, same, loaded, load, same', large "a.b" 18446744073709551615 ?_ (by decide) ?_⟩
  · exact .inside List.mem_cons_self (.inside List.mem_cons_self (.here (by rintro _ ⟨⟩)))
  · intro other leaf
    rcases leaf_cons_iff.mp leaf with leaf | leaf
    · rcases leaf_cons_iff.mp leaf with leaf | leaf
      · exact .inl ((leaf_of_flat_iff (by rintro _ ⟨⟩)).mp leaf).2
      · exact (leaf_nil_iff.mp leaf).elim
    · rcases leaf_cons_iff.mp leaf with leaf | leaf
      · exact .inr ((leaf_of_flat_iff (by rintro _ ⟨⟩)).mp leaf).2
      · exact (leaf_nil_iff.mp leaf).elim

end Settings

end WireRecords
