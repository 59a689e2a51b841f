import WireRecords.Proofs.Rows

/-!
# When keys tell fields apart

A field goes by its name, and a field without one by its position. Positions never clash with each
other, so the keys of a level are distinct unless a name is given twice or a name is the numeral of
the position of a nameless field.
-/

namespace WireRecords

def givenName (name : Option String) : Option String := name.filter fun n => n ≠ ""

/-- The keys of fields that are declared with these names. -/
def fieldKeys (names : List (Option String)) : List String :=
  names.mapIdx fun index name => fieldKey name index

def givenNames (names : List (Option String)) : List String := names.filterMap givenName

def Nameless (names : List (Option String)) (index : Nat) : Prop :=
  ∃ name, names[index]? = some name ∧ givenName name = none

theorem fieldKey_eq (name : Option String) (index : Nat) :
    fieldKey name index = (givenName name).getD (toString index) := by
  cases name with
  | none => rfl
  | some n => by_cases empty : n = "" <;> simp [fieldKey, givenName, Option.filter, empty]

theorem numeral_injective {i j : Nat} (same : toString i = toString j) : i = j := by
  rw [Nat.toString_eq_ofList_toDigits, Nat.toString_eq_ofList_toDigits, String.ofList_inj] at same
  rw [← Nat.ofDigitChars_ten_toDigits (n := i), same, Nat.ofDigitChars_ten_toDigits]

/-- At different positions a key is shared by equal names, or by a nameless field and a field whose
name is that one's position. -/
theorem fieldKey_eq_fieldKey_iff {i j : Nat} (other : i ≠ j) (a b : Option String) :
    fieldKey a i = fieldKey b j ↔
      (∃ n, givenName a = some n ∧ givenName b = some n) ∨
      (givenName a = none ∧ givenName b = some (toString i)) ∨
      (givenName a = some (toString j) ∧ givenName b = none) := by
  have positions : toString i ≠ toString j := fun same => other (numeral_injective same)
  rw [fieldKey_eq, fieldKey_eq]
  cases givenName a with
  | none =>
    cases givenName b with
    | none => simpa using positions
    | some n => simp [eq_comm]
  | some m =>
    cases givenName b with
    | none => simp
    | some n => simp [eq_comm]

variable {names : List (Option String)}

theorem getElem?_fieldKeys (names : List (Option String)) (index : Nat) :
    (fieldKeys names)[index]? = names[index]?.map fun name => fieldKey name index :=
  List.getElem?_mapIdx

theorem mem_givenNames_iff {n : String} :
    n ∈ givenNames names ↔
      ∃ (index : Nat) (name : Option String),
        names[index]? = some name ∧ givenName name = some n := by
  rw [givenNames, List.mem_filterMap]
  constructor
  · rintro ⟨name, member, given⟩
    obtain ⟨index, at_index⟩ := List.mem_iff_getElem?.mp member
    exact ⟨index, name, at_index, given⟩
  · rintro ⟨index, name, at_index, given⟩
    exact ⟨name, List.mem_of_getElem? at_index, given⟩

theorem pairwise_iff_getElem? {α : Type} {R : α → α → Prop} (symm : ∀ a b, R a b → R b a)
    {l : List α} :
    l.Pairwise R ↔ ∀ (i j : Nat) (a b : α), i ≠ j → l[i]? = some a → l[j]? = some b → R a b := by
  rw [List.pairwise_iff_getElem]
  constructor
  · intro ordered i j a b other at_i at_j
    obtain ⟨inside, rfl⟩ := List.getElem?_eq_some_iff.mp at_i
    obtain ⟨inside', rfl⟩ := List.getElem?_eq_some_iff.mp at_j
    rcases Nat.lt_or_gt_of_ne other with less | greater
    · exact ordered i j inside inside' less
    · exact symm _ _ (ordered j i inside' inside greater)
  · intro apart i j inside inside' less
    exact apart i j _ _ (Nat.ne_of_lt less) (List.getElem?_eq_getElem inside)
      (List.getElem?_eq_getElem inside')

theorem nodup_fieldKeys_iff_fieldKey_ne :
    (fieldKeys names).Nodup ↔ ∀ (i j : Nat) (a b : Option String), i ≠ j →
      names[i]? = some a → names[j]? = some b → fieldKey a i ≠ fieldKey b j := by
  rw [List.Nodup, pairwise_iff_getElem? fun _ _ => Ne.symm]
  constructor
  · intro apart i j a b other at_i at_j
    apply apart i j _ _ other
    · rw [getElem?_fieldKeys, at_i, Option.map_some]
    · rw [getElem?_fieldKeys, at_j, Option.map_some]
  · intro apart i j key key' other at_i at_j
    rw [getElem?_fieldKeys] at at_i at_j
    obtain ⟨a, first, rfl⟩ := Option.map_eq_some_iff.mp at_i
    obtain ⟨b, second, rfl⟩ := Option.map_eq_some_iff.mp at_j
    exact apart i j a b other first second

theorem nodup_givenNames_iff :
    (givenNames names).Nodup ↔ ∀ (i j : Nat) (a b : Option String), i ≠ j →
      names[i]? = some a → names[j]? = some b →
        ∀ n, givenName a = some n → givenName b ≠ some n := by
  rw [givenNames, List.Nodup, List.pairwise_filterMap, pairwise_iff_getElem?]
  · constructor
    · intro apart i j a b other at_i at_j n given given'
      exact apart i j a b other at_i at_j n given n given' rfl
    · intro apart i j a b other at_i at_j n given n' given' same
      exact apart i j a b other at_i at_j n given (same ▸ given')
  · intro a b apart n given n' given' same
    exact apart n' given' n given same.symm

theorem nodup_fieldKeys_iff :
    (fieldKeys names).Nodup ↔ (givenNames names).Nodup ∧
      ∀ index, Nameless names index → toString index ∉ givenNames names := by
  rw [nodup_fieldKeys_iff_fieldKey_ne, nodup_givenNames_iff]
  constructor
  · intro apart
    refine ⟨?_, ?_⟩
    · intro i j a b other at_i at_j n given given'
      exact apart i j a b other at_i at_j
        ((fieldKey_eq_fieldKey_iff other a b).mpr (.inl ⟨n, given, given'⟩))
    · rintro index ⟨a, at_index, nameless⟩ taken
      obtain ⟨j, b, at_j, given⟩ := mem_givenNames_iff.mp taken
      -- the name is another field's, since this one has none
      have other : index ≠ j := by
        rintro rfl
        cases at_index.symm.trans at_j
        cases nameless.symm.trans given
      exact apart index j a b other at_index at_j
        ((fieldKey_eq_fieldKey_iff other a b).mpr (.inr (.inl ⟨nameless, given⟩)))
  · rintro ⟨distinct, free⟩ i j a b other at_i at_j same
    rcases (fieldKey_eq_fieldKey_iff other a b).mp same with
      ⟨n, given, given'⟩ | ⟨nameless, given⟩ | ⟨given, nameless⟩
    · exact distinct i j a b other at_i at_j n given given'
    · exact free i ⟨a, at_i, nameless⟩ (mem_givenNames_iff.mpr ⟨j, b, at_j, given⟩)
    · exact free j ⟨b, at_j, nameless⟩ (mem_givenNames_iff.mpr ⟨i, a, at_i, given⟩)

theorem Nameless.eq_of_fieldKeys {i j : Nat} (first : Nameless names i) (second : Nameless names j)
    (same : (fieldKeys names)[i]? = (fieldKeys names)[j]?) : i = j := by
  obtain ⟨a, at_i, nameless⟩ := first
  obtain ⟨b, at_j, nameless'⟩ := second
  rw [getElem?_fieldKeys, getElem?_fieldKeys, at_i, at_j, Option.map_some, Option.map_some,
    Option.some_inj] at same
  by_contra other
  rcases (fieldKey_eq_fieldKey_iff other a b).mp same with ⟨n, given, -⟩ | ⟨-, given⟩ | ⟨given, -⟩
  · cases nameless.symm.trans given
  · cases nameless'.symm.trans given
  · cases nameless.symm.trans given

/-- No key is empty, and nameless fields never share one. The keys are distinct if and only if no
name is given twice and no name is the numeral of the position of a nameless field. -/
theorem fieldKeys_unambiguous (names : List (Option String)) :
    (∀ key ∈ fieldKeys names, key ≠ "") ∧
    ((fieldKeys names).Nodup ↔ (givenNames names).Nodup ∧
      ∀ index, Nameless names index → toString index ∉ givenNames names) ∧
    ∀ i j : Nat, Nameless names i → Nameless names j →
      (fieldKeys names)[i]? = (fieldKeys names)[j]? → i = j := by
  refine ⟨?_, nodup_fieldKeys_iff, fun i j => Nameless.eq_of_fieldKeys⟩
  intro key member
  obtain ⟨index, inside, rfl⟩ := List.mem_mapIdx.mp member
  exact fieldKey_ne_empty names[index] index

/-- The second name is the position of the last field, which has none; the fourth one has a zero too
many for that. -/
theorem fieldKeys_unambiguous_numeral :
    let clashing : List (Option String) := [none, some "4", some "", some "04", none]
    let distinct : List (Option String) := [none, some "14", some "", some "04", none]
    fieldKeys clashing = ["0", "4", "2", "04", "4"] ∧ "04" ∈ fieldKeys clashing ∧ "04" ≠ "" ∧
      Nameless clashing 4 ∧ toString 4 ∈ givenNames clashing ∧ ¬ (fieldKeys clashing).Nodup ∧
      Nameless distinct 0 ∧ Nameless distinct 2 ∧ (fieldKeys distinct).Nodup ∧
      (fieldKeys distinct)[0]? ≠ (fieldKeys distinct)[2]? := by
  intro clashing distinct
  obtain ⟨nonempty, clash, -⟩ := fieldKeys_unambiguous clashing
  obtain ⟨-, -, apart⟩ := fieldKeys_unambiguous distinct
  have member : "04" ∈ fieldKeys clashing := by decide
  have last : Nameless clashing 4 := ⟨none, rfl, rfl⟩
  have taken : toString 4 ∈ givenNames clashing := by decide
  have first : Nameless distinct 0 := ⟨none, rfl, rfl⟩
  have third : Nameless distinct 2 := ⟨some "", rfl, rfl⟩
  refine ⟨by decide, member, nonempty "04" member, last, taken, ?_, first, third, by decide, ?_⟩
  · intro nodup
    exact (clash.mp nodup).2 4 last taken
  · intro same
    exact absurd (apart 0 2 first third same) (by decide)

namespace Schema

def declaredNames (s : Schema) : List (Option String) := (s.fieldInfos 0).map FieldInfo.name

theorem keysFrom_eq_mapIdx (s : Schema) (index : Nat) :
    s.keysFrom index =
      ((s.fieldInfos index).map FieldInfo.name).mapIdx fun i name => fieldKey name (index + i) := by
  induction s generalizing index with
  | nil => rfl
  | leaf name slot rest ih =>
    rw [keysFrom_leaf, ih, fieldInfos, List.map_cons, List.mapIdx_cons]
    simp only [Nat.add_zero, Nat.add_assoc, Nat.add_comm 1]
  | group name inner rest _ ih =>
    rw [keysFrom_group, ih, fieldInfos, List.map_cons, List.mapIdx_cons]
    simp only [Nat.add_zero, Nat.add_assoc, Nat.add_comm 1]

theorem keys_eq_fieldKeys (s : Schema) : s.keys = fieldKeys s.declaredNames := by
  rw [keys, keysFrom_eq_mapIdx, fieldKeys, declaredNames]
  simp only [Nat.zero_add]

/-- The keys of a schema are distinct if on every level no name is given twice and no name is the
position of a nameless field. -/
theorem distinctKeys_iff (s : Schema) :
    s.DistinctKeys ↔ ∀ t ∈ s.levels, (givenNames t.declaredNames).Nodup ∧
      ∀ index, Nameless t.declaredNames index → toString index ∉ givenNames t.declaredNames := by
  simp only [DistinctKeys, keys_eq_fieldKeys, nodup_fieldKeys_iff]

end Schema

end WireRecords
