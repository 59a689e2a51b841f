import WireRecords.Proofs.Place

/-!
# Routes

A route leads from a record down to one of its primitive fields: by the positions taken on every
level, by the offsets at them, or by the keys of the fields passed. The sum of the offsets is the
place of the field in the outermost record. A level is the record itself or one nested in it; where
the keys of every level are distinct, the keys tell the routes apart.
-/

namespace WireRecords.Schema

def fieldAt? : Schema → Nat → Option (Slot ⊕ Schema)
  | nil, _ => none
  | leaf _ slot _, 0 => some (.inl slot)
  | group _ inner _, 0 => some (.inr inner)
  | leaf _ _ rest, i + 1 => rest.fieldAt? i
  | group _ _ rest, i + 1 => rest.fieldAt? i

/-- A way down to a primitive field: the position taken in every record on it, and the offset that
the field at that position has in its own record. -/
inductive Leads : Schema → List Nat → List Nat → Slot → Prop where
  | field {s i o slot} (field : s.fieldAt? i = some (.inl slot)) (offset : s.offsets[i]? = some o) :
      Leads s [i] [o] slot
  | enter {s i o inner is os slot} (field : s.fieldAt? i = some (.inr inner))
      (offset : s.offsets[i]? = some o) (below : Leads inner is os slot) :
      Leads s (i :: is) (o :: os) slot

theorem offsetsFrom_add (s : Schema) (a b : Nat) :
    s.offsetsFrom (a + b) = (s.offsetsFrom b).map (a + ·) := by
  induction s generalizing b with
  | nil => rfl
  | leaf name slot rest ih => rw [offsetsFrom, Nat.add_assoc, ih, offsetsFrom, List.map_cons]
  | group name inner rest _ ih => rw [offsetsFrom, Nat.add_assoc, ih, offsetsFrom, List.map_cons]

theorem offsetsFrom_eq_map (s : Schema) (start : Nat) :
    s.offsetsFrom start = s.offsets.map (start + ·) :=
  s.offsetsFrom_add start 0

theorem offsets_leaf (name : Option String) (slot : Slot) (rest : Schema) :
    (leaf name slot rest).offsets = 0 :: rest.offsets.map (slot.byteLen + ·) := by
  rw [offsets, offsetsFrom, Nat.zero_add, offsetsFrom_eq_map]

theorem offsets_group (name : Option String) (inner rest : Schema) :
    (group name inner rest).offsets = 0 :: rest.offsets.map (inner.byteLen + ·) := by
  rw [offsets, offsetsFrom, Nat.zero_add, offsetsFrom_eq_map]

theorem Leads.shift {s rest : Schema} {n i o : Nat} {is os : List Nat} {slot : Slot}
    (fields : ∀ i, s.fieldAt? (i + 1) = rest.fieldAt? i)
    (offsets : s.offsets = 0 :: rest.offsets.map (n + ·))
    (h : Leads rest (i :: is) (o :: os) slot) :
    Leads s ((i + 1) :: is) ((n + o) :: os) slot := by
  have moved : rest.offsets[i]? = some o → s.offsets[i + 1]? = some (n + o) := by
    intro at_i
    -- only the first offset counts from the start of this list, all further ones from inside
    rw [offsets, List.getElem?_cons_succ, List.getElem?_map, at_i, Option.map_some]
  cases h with
  | field field offset => exact .field ((fields i).trans field) (moved offset)
  | enter field offset below => exact .enter ((fields i).trans field) (moved offset) below

namespace Place

def top : {s : Schema} → Place s → Nat
  | .leaf _ _ _, here => 0
  | .leaf _ _ _, next p => p.top + 1
  | .group _ _ _, inside _ => 0
  | .group _ _ _, behind p => p.top + 1

def inward : {s : Schema} → Place s → List Nat
  | .leaf _ _ _, here => []
  | .leaf _ _ _, next p => p.inward
  | .group _ _ _, inside p => p.top :: p.inward
  | .group _ _ _, behind p => p.inward

def route {s : Schema} (p : Place s) : List Nat := p.top :: p.inward

/-- The offset of a place is the sum of the offsets on the way down to it. -/
theorem leads {s : Schema} (p : Place s) :
    ∃ o os, Leads s p.route (o :: os) p.slot ∧ p.offset = (o :: os).sum := by
  induction p with
  | here => exact ⟨0, [], .field rfl rfl, rfl⟩
  | @next name slot rest p ih =>
    obtain ⟨o, os, way, sum⟩ := ih
    refine ⟨slot.byteLen + o, os, way.shift (fun _ => rfl) (offsets_leaf name slot rest), ?_⟩
    rw [offset, sum, List.sum_cons, List.sum_cons, Nat.add_assoc]
  | inside p ih =>
    obtain ⟨o, os, way, sum⟩ := ih
    refine ⟨0, o :: os, .enter rfl rfl way, ?_⟩
    rw [offset, List.sum_cons (a := 0), Nat.zero_add, sum]
  | @behind name inner rest p ih =>
    obtain ⟨o, os, way, sum⟩ := ih
    refine ⟨inner.byteLen + o, os, way.shift (fun _ => rfl) (offsets_group name inner rest), ?_⟩
    rw [offset, sum, List.sum_cons, List.sum_cons, Nat.add_assoc]

end Place

def keysFrom (index : Nat) (s : Schema) : List String := (s.fieldInfos index).map FieldInfo.key

def keys (s : Schema) : List String := s.keysFrom 0

theorem keysFrom_leaf (index : Nat) (name : Option String) (slot : Slot) (rest : Schema) :
    (leaf name slot rest).keysFrom index = fieldKey name index :: rest.keysFrom (index + 1) := rfl

theorem keysFrom_group (index : Nat) (name : Option String) (inner rest : Schema) :
    (group name inner rest).keysFrom index = fieldKey name index :: rest.keysFrom (index + 1) := rfl

def nested : Schema → List Schema
  | nil => []
  | leaf _ _ rest => rest.nested
  | group _ inner rest => inner :: (inner.nested ++ rest.nested)

def levels (s : Schema) : List Schema := s :: s.nested

/-- No two fields of one level go by the same key. -/
def DistinctKeys (s : Schema) : Prop := ∀ t ∈ s.levels, t.keys.Nodup

instance (s : Schema) : Decidable s.DistinctKeys :=
  inferInstanceAs (Decidable (∀ t ∈ s.levels, t.keys.Nodup))

def PlainKeys (s : Schema) : Prop := ∀ t ∈ s.levels, ∀ key ∈ t.keys, '.' ∉ key.toList

instance (s : Schema) : Decidable s.PlainKeys :=
  inferInstanceAs (Decidable (∀ t ∈ s.levels, ∀ key ∈ t.keys, '.' ∉ key.toList))

structure DistinctFrom (index : Nat) (s : Schema) : Prop where
  outermost : (s.keysFrom index).Nodup
  nested : ∀ t ∈ s.nested, t.keys.Nodup

namespace DistinctFrom

variable {index : Nat} {name : Option String} {slot : Slot} {inner rest : Schema}

theorem of_distinctKeys {s : Schema} (h : s.DistinctKeys) : s.DistinctFrom 0 :=
  ⟨h s List.mem_cons_self, fun t ht => h t (List.mem_cons_of_mem _ ht)⟩

theorem rest_leaf (h : (leaf name slot rest).DistinctFrom index) :
    rest.DistinctFrom (index + 1) :=
  ⟨(List.nodup_cons.mp h.outermost).2, h.nested⟩

theorem rest_group (h : (group name inner rest).DistinctFrom index) :
    rest.DistinctFrom (index + 1) :=
  ⟨(List.nodup_cons.mp h.outermost).2, fun t ht =>
    h.nested t (List.mem_cons_of_mem _ (List.mem_append_right _ ht))⟩

theorem inner_group (h : (group name inner rest).DistinctFrom index) : inner.DistinctFrom 0 :=
  ⟨h.nested inner List.mem_cons_self, fun t ht =>
    h.nested t (List.mem_cons_of_mem _ (List.mem_append_left _ ht))⟩

theorem not_mem_leaf (h : (leaf name slot rest).DistinctFrom index) :
    fieldKey name index ∉ rest.keysFrom (index + 1) :=
  (List.nodup_cons.mp h.outermost).1

theorem not_mem_group (h : (group name inner rest).DistinctFrom index) :
    fieldKey name index ∉ rest.keysFrom (index + 1) :=
  (List.nodup_cons.mp h.outermost).1

end DistinctFrom

namespace Place

/-- The keys on the way down to a place, the outermost first. -/
def keysFrom (index : Nat) : {s : Schema} → Place s → List String
  | .leaf name _ _, here => [fieldKey name index]
  | .leaf _ _ _, next p => p.keysFrom (index + 1)
  | .group name _ _, inside p => fieldKey name index :: p.keysFrom 0
  | .group _ _ _, behind p => p.keysFrom (index + 1)

def keys {s : Schema} (p : Place s) : List String := p.keysFrom 0

theorem keysFrom_eq_cons {s : Schema} (p : Place s) (index : Nat) :
    ∃ key keys, p.keysFrom index = key :: keys ∧ (s.keysFrom index)[p.top]? = some key := by
  induction p generalizing index with
  | here => exact ⟨_, [], rfl, rfl⟩
  | next p ih => exact ih (index + 1)
  | inside p _ => exact ⟨_, _, rfl, rfl⟩
  | behind p ih => exact ih (index + 1)

theorem mem_keysFrom {s : Schema} {p : Place s} {index : Nat} {key : String}
    (h : key ∈ p.keysFrom index) : key ∈ s.keysFrom index ∨ ∃ t ∈ s.nested, key ∈ t.keys := by
  induction p generalizing index with
  | here =>
    rw [List.mem_singleton.mp h]
    exact .inl List.mem_cons_self
  | next p ih => exact (ih h).imp (List.mem_cons_of_mem _) id
  | @inside name inner rest p ih =>
    rcases List.mem_cons.mp h with rfl | h
    · exact .inl List.mem_cons_self
    · right
      rcases ih h with own | ⟨t, ht, below⟩
      · exact ⟨inner, List.mem_cons_self, own⟩
      · exact ⟨t, List.mem_cons_of_mem _ (List.mem_append_left _ ht), below⟩
  | behind p ih =>
    rcases ih h with own | ⟨t, ht, below⟩
    · exact .inl (List.mem_cons_of_mem _ own)
    · exact .inr ⟨t, List.mem_cons_of_mem _ (List.mem_append_right _ ht), below⟩

theorem free_of_mem_keys {s : Schema} (h : s.PlainKeys) {p : Place s} {key : String}
    (hk : key ∈ p.keys) : '.' ∉ key.toList := by
  rcases mem_keysFrom hk with own | ⟨t, ht, below⟩
  · exact h s List.mem_cons_self key own
  · exact h t (List.mem_cons_of_mem _ ht) key below

end Place

end WireRecords.Schema
