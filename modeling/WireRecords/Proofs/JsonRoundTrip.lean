import WireRecords.Proofs.Entries
import WireRecords.Proofs.Route
import WireRecords.Proofs.StoredInteger
import WireRecords.Samples

/-!
# Round trips through JSON

A record comes back from its JSON view if the keys on every level are distinct: no member overwrites
another one, and every value is an integer that its storage holds. Where two fields of one level
share a key, the later one overwrites the earlier one, and what the earlier one holds is lost.
-/

namespace WireRecords

namespace Primitive

theorem one_le_greatest (p : Primitive) : 1 ≤ p.greatest := by
  have bound (k : IntKind) : 1 ≤ k.greatest := by
    have many : 256 ≤ k.patterns := by
      rw [IntKind.patterns]
      cases k.width <;> decide
    have := k.patterns_eq
    rw [IntKind.greatest]
    split <;> omega
  cases p with
  | integer k => exact bound k
  | boolean => decide
  | byte => decide
  | enumeration name k => exact bound k

end Primitive

namespace Scalar

theorem integerOfJson_ofInt {p : Primitive} (h : p.isSigned = true) (v : Scalar p) :
    integerOfJson p (.ofInt v.val) = .ok v := by
  obtain ⟨low, high⟩ := Primitive.signed_storage h
  have kept : (Int64.ofInt v.val).toInt = v.val :=
    Int64.toInt_ofInt_of_le (low.trans v.least_le) (v.le_greatest.trans_lt high)
  rw [integerOfJson_eq_ok_iff, Json.ofInt, Json.integer?, kept]

theorem integerOfJson_ofNat {p : Primitive} (h : p.isSigned = false) (v : Scalar p) :
    integerOfJson p (.ofNat v.val.toNat) = .ok v := by
  obtain ⟨low, high⟩ := Primitive.unsigned_storage h
  have least := v.least_le
  have greatest := v.le_greatest
  have kept : ((UInt64.ofNat v.val.toNat).toNat : Int) = v.val := by
    rw [UInt64.toNat_ofNat', Nat.mod_eq_of_lt (by omega)]
    omega
  rw [integerOfJson_eq_ok_iff, Json.ofNat, Json.integer?, kept]

theorem ofJson_toJson {p : Primitive} (v : Scalar p) : ofJson p v.toJson = .ok v := by
  by_cases truth : p = .boolean
  · subst truth
    have low := v.least_le
    have high := v.le_greatest
    simp only [Primitive.least, Primitive.greatest] at low high
    have two : v.val = 0 ∨ v.val = 1 := by omega
    rw [toJson, if_pos rfl, ofJson, Except.ok.injEq]
    apply Scalar.ext
    rcases two with h | h <;> rw [h] <;> rfl
  · rw [toJson, if_neg truth, ofJson_of_ne_boolean truth]
    cases signed : p.isSigned with
    | true => exact integerOfJson_ofInt signed v
    | false => exact integerOfJson_ofNat signed v

end Scalar

namespace Json

theorem ofMembers_eq (ms : List (String × Json)) :
    ofMembers ms = object (Entries.insertAll [] ms) := rfl

end Json

namespace Schema

theorem keys_memberList (s : Schema) (index : Nat) (r : s.Record) :
    (s.memberList index r).map Prod.fst = s.keysFrom index := by
  induction s generalizing index with
  | nil => rfl
  | leaf name slot rest ih => rw [memberList, List.map_cons, ih, keysFrom_leaf]
  | group name inner rest _ ih => rw [memberList, List.map_cons, ih, keysFrom_group]

theorem ofMembers_of_find? {s : Schema} {index : Nat} (h : s.DistinctFrom index) (path : FieldPath)
    {ms : List (String × Json)} {v : s.Record}
    (found : ∀ e ∈ s.memberList index v, Entries.find? ms e.1 = some e.2) (r : s.Record) :
    s.ofMembers index path ms r = .ok v := by
  induction s generalizing index path ms with
  | nil => rfl
  | leaf name slot rest ih =>
    have head := found _ List.mem_cons_self
    have tail := ih h.rest_leaf path (fun e he => found e (List.mem_cons_of_mem _ he)) r.2
    simp only [ofMembers, head, Scalar.ofJson_toJson, tail]
    rfl
  | group name inner rest ih_inner ih_rest =>
    have head := found _ List.mem_cons_self
    have tail := ih_rest h.rest_group path (fun e he => found e (List.mem_cons_of_mem _ he)) r.2
    -- the nested object holds the nested members unchanged, since their keys are distinct
    have distinct : ((inner.memberList 0 v.1).map Prod.fst).Nodup := by
      rw [keys_memberList]
      exact h.inner_group.outermost
    have inside := ih_inner h.inner_group (path ++ [fieldKey name index])
      (fun e he => Entries.find?_insertAll_of_mem distinct he) r.1
    simp only [ofMembers, head, Json.ofMembers_eq, inside, tail]
    rfl

namespace Place

def set : {s : Schema} → (p : Place s) → Scalar p.slot.type → s.Record → s.Record
  | .leaf _ _ _, here, x, r => (x, r.2)
  | .leaf _ _ _, next p, x, r => (r.1, p.set x r.2)
  | .group _ _ _, inside p, x, r => (p.set x r.1, r.2)
  | .group _ _ _, behind p, x, r => (r.1, p.set x r.2)

theorem get_set {s : Schema} (p : Place s) (x : Scalar p.slot.type) (r : s.Record) :
    p.get (p.set x r) = x := by
  induction p with
  | here => rfl
  | next p ih => exact ih x r.2
  | inside p ih => exact ih x r.1
  | behind p ih => exact ih x r.2

theorem memberList_set {s : Schema} (p : Place s) (x : Scalar p.slot.type) (index : Nat)
    (r : s.Record) :
    ∃ front back key j j', front.length = p.top ∧
      s.memberList index r = front ++ (key, j) :: back ∧
      s.memberList index (p.set x r) = front ++ (key, j') :: back := by
  induction p generalizing index with
  | here => exact ⟨[], _, _, _, _, rfl, rfl, rfl⟩
  | inside p _ => exact ⟨[], _, _, _, _, rfl, rfl, rfl⟩
  | next p ih =>
    obtain ⟨front, back, key, j, j', top, before, after⟩ := ih x (index + 1) r.2
    exact ⟨_ :: front, back, key, j, j', congrArg (· + 1) top, congrArg (_ :: ·) before,
      congrArg (_ :: ·) after⟩
  | behind p ih =>
    obtain ⟨front, back, key, j, j', top, before, after⟩ := ih x (index + 1) r.2
    exact ⟨_ :: front, back, key, j, j', congrArg (· + 1) top, congrArg (_ :: ·) before,
      congrArg (_ :: ·) after⟩

/-- What a field holds does not show in the object if a later field has the same key. -/
theorem toJson_set {s : Schema} {p : Place s} {i : Nat} (later : p.top < i)
    (same : s.keys[i]? = s.keys[p.top]?) (x : Scalar p.slot.type) (r : s.Record) :
    s.toJson (p.set x r) = s.toJson r := by
  obtain ⟨front, back, key, j, j', top, before, after⟩ := p.memberList_set x 0 r
  have keys : s.keys = front.map Prod.fst ++ key :: back.map Prod.fst := by
    rw [Schema.keys, ← s.keys_memberList 0 r, before, List.map_append, List.map_cons]
  have shadowed : key ∈ back.map Prod.fst := by
    -- the other position of the key lies behind the member that changes
    obtain ⟨n, rfl⟩ : ∃ n, i = (front.map Prod.fst).length + (n + 1) :=
      ⟨i - p.top - 1, by rw [List.length_map, top]; omega⟩
    rw [← top, ← front.length_map Prod.fst, keys, List.getElem?_append_right (by omega),
      List.getElem?_append_right (by omega), Nat.add_sub_cancel_left, Nat.sub_self,
      List.getElem?_cons_succ, List.getElem?_cons_zero] at same
    exact List.mem_of_getElem? same
  rw [toJson, toJson, before, after, Json.ofMembers_eq, Json.ofMembers_eq,
    Entries.insertAll_shadowed shadowed j' j]

end Place

theorem toJson_eq_of_nested {s t : Schema} (h : t ∈ s.nested) {a b : t.Record} (differ : a ≠ b)
    (same : t.toJson a = t.toJson b) :
    ∃ a' b' : s.Record, a' ≠ b' ∧ ∀ index, s.memberList index a' = s.memberList index b' := by
  induction s with
  | nil => cases h
  | leaf name slot rest ih =>
    obtain ⟨a', b', differ', same'⟩ := ih h
    refine ⟨(Scalar.zero slot.type, a'), (Scalar.zero slot.type, b'), ?_, ?_⟩
    · exact fun eq => differ' (congrArg Prod.snd eq)
    · intro index
      exact congrArg (List.cons _) (same' (index + 1))
  | group name inner rest ih_inner ih_rest =>
    have lift {a' b' : inner.Record} (differ' : a' ≠ b')
        (same' : inner.toJson a' = inner.toJson b') :
        ∃ a' b' : (group name inner rest).Record, a' ≠ b' ∧
          ∀ index, (group name inner rest).memberList index a' =
            (group name inner rest).memberList index b' := by
      refine ⟨(a', Record.zero rest), (b', Record.zero rest), ?_, ?_⟩
      · exact fun eq => differ' (congrArg Prod.fst eq)
      · intro index
        exact congrArg (fun j => (fieldKey name index, j) :: rest.memberList (index + 1) _) same'
    rcases List.mem_cons.mp h with rfl | h
    · exact lift differ same
    · rcases List.mem_append.mp h with h | h
      · obtain ⟨a', b', differ', same'⟩ := ih_inner h
        exact lift differ' (by rw [toJson, toJson, same'])
      · obtain ⟨a', b', differ', same'⟩ := ih_rest h
        refine ⟨(Record.zero inner, a'), (Record.zero inner, b'), ?_, ?_⟩
        · exact fun eq => differ' (congrArg Prod.snd eq)
        · intro index
          exact congrArg (List.cons _) (same' (index + 1))

theorem toJson_eq_of_levels {s t : Schema} (h : t ∈ s.levels) {a b : t.Record} (differ : a ≠ b)
    (same : t.toJson a = t.toJson b) : ∃ a' b' : s.Record, a' ≠ b' ∧ s.toJson a' = s.toJson b' := by
  rcases List.mem_cons.mp h with rfl | h
  · exact ⟨a, b, differ, same⟩
  · obtain ⟨a', b', differ', same'⟩ := toJson_eq_of_nested h differ same
    exact ⟨a', b', differ', by rw [toJson, toJson, same']⟩

/-- A primitive field has at least two values, so one that a later field shadows is lost. -/
theorem toJson_eq_of_shadowed {s : Schema} {p : Place s} {i : Nat} (later : p.top < i)
    (same : s.keys[i]? = s.keys[p.top]?) : ∃ a b : s.Record, a ≠ b ∧ s.toJson a = s.toJson b := by
  let one : Scalar p.slot.type :=
    ⟨1, p.slot.type.least_le_zero.trans (by decide), p.slot.type.one_le_greatest⟩
  let zero := Scalar.zero p.slot.type
  refine ⟨p.set zero (Record.zero s), p.set one (Record.zero s), ?_, ?_⟩
  · intro eq
    have values := congrArg p.get eq
    rw [p.get_set, p.get_set] at values
    have : (0 : Int) = 1 := congrArg Scalar.val values
    omega
  · rw [Place.toJson_set later same, Place.toJson_set later same]

end Schema

namespace RecordType

/-- Where the keys on every level are distinct, every record comes back from its JSON view. Where
two fields of one level share a key and the earlier one holds a primitive field, the view does not
tell all records apart, so some record does not come back. -/
theorem json_view_round_trip (R : RecordType) :
    (R.fields.DistinctKeys → ∀ v : R.Value, R.ofJson (R.toJson v) = .ok v) ∧
    ∀ t ∈ R.fields.levels, ∀ (p : Schema.Place t) (i : Nat), p.top < i →
      t.keys[i]? = t.keys[p.top]? →
        ¬ Function.Injective R.toJson ∧ ∃ v : R.Value, R.ofJson (R.toJson v) ≠ .ok v := by
  constructor
  · intro distinct v
    have outermost := Schema.DistinctFrom.of_distinctKeys distinct
    have found {e : String × Json} (he : e ∈ R.fields.memberList 0 v) :
        Entries.find? (Entries.insertAll [] (R.fields.memberList 0 v)) e.1 = some e.2 := by
      apply Entries.find?_insertAll_of_mem _ he
      rw [Schema.keys_memberList]
      exact outermost.outermost
    exact Schema.ofMembers_of_find? outermost [] (fun _ => found) R.initial
  · intro t level p i later same
    obtain ⟨a, b, differ, alike⟩ := Schema.toJson_eq_of_shadowed later same
    obtain ⟨a', b', differ', alike'⟩ := Schema.toJson_eq_of_levels level differ alike
    have lossy : ¬ Function.Injective R.toJson := fun injective => differ' (injective alike')
    refine ⟨lossy, ?_⟩
    by_contra all
    push Not at all
    apply lossy
    intro v w same
    exact Except.ok.inj ((all v).symm.trans ((congrArg R.ofJson same).trans (all w)))

/-- The least and the greatest value of every integer width come back. A field with the name of the
position of the nameless one behind it does not. -/
theorem json_view_round_trip_extremes :
    let v : Samples.integers.Value :=
      (Scalar.ofBits _ 255, Scalar.ofBits _ 128, Scalar.ofBits _ 65535, Scalar.ofBits _ 32768,
        Scalar.ofBits _ 0, Scalar.ofBits _ 32767, Scalar.ofBits _ 4294967295,
        Scalar.ofBits _ 2147483648, Scalar.ofBits _ 0, Scalar.ofBits _ 2147483647,
        Scalar.ofBits _ 18446744073709551615, Scalar.ofBits _ 9223372036854775808,
        Scalar.ofBits _ 0, Scalar.ofBits _ 9223372036854775807, ())
    Samples.integers.fields.DistinctKeys ∧
      Schema.Record.leaves _ v = [255, -128, 65535, -32768, 0, 32767, 4294967295, -2147483648, 0,
        2147483647, 18446744073709551615, -9223372036854775808, 0, 9223372036854775807] ∧
      Samples.integers.ofJson (Samples.integers.toJson v) = .ok v ∧
      Samples.clash.fields ∈ Samples.clash.fields.levels ∧
      Samples.clash.fields.keys = ["1", "1"] ∧ ¬ Function.Injective Samples.clash.toJson := by
  intro v
  have distinct : Samples.integers.fields.DistinctKeys := by decide
  have level : Samples.clash.fields ∈ Samples.clash.fields.levels := List.mem_cons_self
  refine ⟨distinct, by decide, (json_view_round_trip Samples.integers).1 distinct v, level,
    by decide, ?_⟩
  exact ((json_view_round_trip Samples.clash).2 _ level .here 1 (by decide) (by decide)).1

end RecordType

end WireRecords
