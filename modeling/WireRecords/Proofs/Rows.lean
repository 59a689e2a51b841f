import WireRecords.Proofs.Lookup
import WireRecords.Proofs.Route
import WireRecords.Samples

/-!
# Rows and lookups

The table of a layout writes full names top down, the lookup takes a path apart from its front.
Where the names of every level are distinct and clear the two are inverse: the rows carry the full
names of all definitions in preorder, and a path leads to a definition just if it is the full name
of its row.
-/

namespace WireRecords

namespace FieldList

/-- All definitions in preorder, each with the names on the way down to it. -/
def paths : FieldList → List (List String × FieldDefinition × FieldList)
  | nil => []
  | cons d children rest =>
    ([d.name], d, children) ::
      (children.paths.map (fun (names, node) => (d.name :: names, node)) ++ rest.paths)

theorem paths_snd (fields : FieldList) : fields.paths.map Prod.snd = fields.nodes := by
  induction fields with
  | nil => rfl
  | cons d children rest ih_children ih_rest =>
    rw [paths, nodes, List.map_cons, List.map_append, List.map_map, ih_rest, ← ih_children]
    rfl

theorem rows_eq (fields : FieldList) (parents : List String) :
    fields.rows (Text.dotted parents) =
      fields.paths.map fun (names, d, _) => (Text.dotted (parents ++ names), d) := by
  induction fields generalizing parents with
  | nil => rfl
  | cons d children rest ih_children ih_rest =>
    have inner := ih_children (parents ++ [d.name])
    -- the row's own full name is the prefix of the rows of its children
    rw [Text.dotted_concat] at inner
    simp only [rows, paths, inner, ih_rest, Text.dotted_concat, List.map_cons, List.map_append,
      List.map_map, List.append_assoc, List.singleton_append, Function.comp_def]

theorem rows_root (fields : FieldList) :
    fields.rows "" = fields.paths.map fun (names, d, _) => (Text.dotted names, d) :=
  fields.rows_eq []

theorem rows_snd (fields : FieldList) :
    (fields.rows "").map Prod.snd = fields.nodes.map Prod.fst := by
  rw [← paths_snd, rows_root, List.map_map, List.map_map]
  rfl

theorem ne_nil_of_mem_paths {fields : FieldList} {names : List String}
    {node : FieldDefinition × FieldList} (h : (names, node) ∈ fields.paths) : names ≠ [] := by
  induction fields with
  | nil => cases h
  | cons d children rest _ ih =>
    rcases List.mem_cons.mp h with h | h
    · cases h
      exact List.cons_ne_nil _ _
    rcases List.mem_append.mp h with h | h
    · obtain ⟨_, -, h⟩ := List.mem_map.mp h
      cases h
      exact List.cons_ne_nil _ _
    · exact ih h

theorem mem_paths_cons_iff {d : FieldDefinition} {children rest : FieldList} {name : String}
    {names : List String} {node : FieldDefinition × FieldList} :
    (name :: names, node) ∈ (cons d children rest).paths ↔
      (d.name = name ∧ (names = [] ∧ node = (d, children) ∨ (names, node) ∈ children.paths)) ∨
        (name :: names, node) ∈ rest.paths := by
  constructor
  · intro h
    rcases List.mem_cons.mp h with h | h
    · cases h
      exact .inl ⟨rfl, .inl ⟨rfl, rfl⟩⟩
    rcases List.mem_append.mp h with h | h
    · obtain ⟨_, below, h⟩ := List.mem_map.mp h
      cases h
      exact .inl ⟨rfl, .inr below⟩
    · exact .inr h
  · rintro (⟨rfl, ⟨rfl, rfl⟩ | below⟩ | behind)
    · exact List.mem_cons_self
    · exact List.mem_cons_of_mem _ (List.mem_append_left _ (List.mem_map.mpr ⟨_, below, rfl⟩))
    · exact List.mem_cons_of_mem _ (List.mem_append_right _ behind)

theorem mem_tops_of_mem_paths {fields : FieldList} {name : String} {names : List String}
    {node : FieldDefinition × FieldList} (h : (name :: names, node) ∈ fields.paths) :
    name ∈ fields.tops.map FieldDefinition.name := by
  induction fields with
  | nil => cases h
  | cons d children rest _ ih =>
    rcases mem_paths_cons_iff.mp h with ⟨rfl, -⟩ | h
    · exact List.mem_cons_self
    · exact List.mem_cons_of_mem _ (ih h)

/-- On every level the names are distinct, not empty, and without a point. -/
inductive Plain : FieldList → Prop where
  | nil : Plain nil
  | cons {d children rest} (clear : Text.Clear d.name)
      (fresh : d.name ∉ rest.tops.map FieldDefinition.name) (below : Plain children)
      (behind : Plain rest) : Plain (cons d children rest)

namespace Plain

variable {fields : FieldList} {names : List String} {node : FieldDefinition × FieldList}

theorem clear_of_mem (plain : fields.Plain) (h : (names, node) ∈ fields.paths) :
    ∀ name ∈ names, Text.Clear name := by
  induction plain generalizing names with
  | nil => cases h
  | cons clear _ _ _ ih_below ih_behind =>
    cases names with
    | nil => exact absurd rfl (ne_nil_of_mem_paths h)
    | cons name names =>
      rcases mem_paths_cons_iff.mp h with ⟨rfl, ⟨rfl, -⟩ | below⟩ | behind
      · exact List.forall_mem_singleton.mpr clear
      · exact List.forall_mem_cons.mpr ⟨clear, ih_below below⟩
      · exact ih_behind behind

theorem mem_paths_iff (plain : fields.Plain) :
    (names, node) ∈ fields.paths ↔ fields.resolve? names = some node := by
  cases names with
  | nil =>
    constructor
    · intro h
      exact absurd rfl (ne_nil_of_mem_paths h)
    · intro h
      cases h
  | cons name names =>
    induction plain generalizing name names with
    | nil => simp [paths, resolve?_nil]
    | @cons d children rest _ fresh _ _ ih_below ih_behind =>
      rw [mem_paths_cons_iff]
      by_cases same : d.name = name
      · subst same
        have apart : (d.name :: names, node) ∉ rest.paths := fun h =>
          fresh (mem_tops_of_mem_paths h)
        cases names with
        | nil =>
          have none_below : ([], node) ∉ children.paths := fun h => ne_nil_of_mem_paths h rfl
          simp [apart, none_below, resolve?, first?, eq_comm]
        | cons next names =>
          rw [resolve?_cons_self (List.cons_ne_nil next names), ← ih_below]
          simp [apart]
      · rw [resolve?_cons_of_ne same, ← ih_behind]
        simp [same]

theorem nodup_paths (plain : fields.Plain) : (fields.paths.map Prod.fst).Nodup := by
  induction plain with
  | nil => exact List.nodup_nil
  | @cons d children rest _ fresh _ _ ih_below ih_behind =>
    have below : ((children.paths.map Prod.fst).map (d.name :: ·)).Nodup :=
      List.Nodup.map List.cons_injective ih_below
    have apart {names : List String} : d.name :: names ∉ rest.paths.map Prod.fst := by
      intro h
      obtain ⟨⟨_, node⟩, mem, rfl⟩ := List.mem_map.mp h
      exact fresh (mem_tops_of_mem_paths mem)
    have alone : [] ∉ children.paths.map Prod.fst := by
      intro h
      obtain ⟨⟨_, node⟩, mem, empty⟩ := List.mem_map.mp h
      exact ne_nil_of_mem_paths mem empty
    have keys : (FieldList.cons d children rest).paths.map Prod.fst = [d.name] ::
        ((children.paths.map Prod.fst).map (d.name :: ·) ++ rest.paths.map Prod.fst) := by
      rw [paths, List.map_cons, List.map_append, List.map_map, List.map_map]
      rfl
    rw [keys, List.nodup_cons, List.mem_append, List.nodup_append]
    refine ⟨?_, below, ih_behind, ?_⟩
    · rintro (h | h)
      · exact alone (by simpa using h)
      · exact apart h
    · rintro _ h _ h' rfl
      obtain ⟨names, -, rfl⟩ := List.mem_map.mp h
      exact apart h'

theorem split_of_mem (plain : fields.Plain) (h : (names, node) ∈ fields.paths) :
    Text.split '.' (Text.dotted names) = names :=
  Text.split_dotted (plain.clear_of_mem h) (ne_nil_of_mem_paths h)

theorem resolve?_rows (plain : fields.Plain) :
    (fields.rows "").map (fun row => fields.resolve? (Text.split '.' row.1)) =
      fields.nodes.map some := by
  rw [← paths_snd, rows_root, List.map_map, List.map_map]
  apply List.map_congr_left
  intro ⟨names, node⟩ mem
  have found := plain.mem_paths_iff.mp mem
  rw [← plain.split_of_mem mem] at found
  exact found

theorem mem_rows_iff (plain : fields.Plain) (path : String) :
    path ∈ (fields.rows "").map Prod.fst ↔ fields.resolve? (Text.split '.' path) ≠ none := by
  rw [rows_root, List.map_map, List.mem_map, Option.ne_none_iff_exists']
  constructor
  · rintro ⟨⟨names, node⟩, mem, rfl⟩
    refine ⟨node, plain.mem_paths_iff.mp ?_⟩
    rwa [← plain.split_of_mem mem] at mem
  · rintro ⟨node, found⟩
    have mem := plain.mem_paths_iff.mpr found
    refine ⟨_, mem, ?_⟩
    have joined := Text.dotted_of_clear (plain.clear_of_mem mem)
    exact joined.trans (Text.intercalate_split '.' path)

theorem nodup_rows (plain : fields.Plain) : ((fields.rows "").map Prod.fst).Nodup := by
  rw [rows_root, List.map_map]
  have joined : fields.paths.map (Prod.fst ∘ fun (names, d, _) => (Text.dotted names, d)) =
      (fields.paths.map Prod.fst).map Text.dotted := by
    rw [List.map_map]
    rfl
  rw [joined]
  apply Text.nodup_dotted plain.nodup_paths
  · intro names h
    obtain ⟨⟨_, node⟩, mem, rfl⟩ := List.mem_map.mp h
    exact ne_nil_of_mem_paths mem
  · intro names h
    obtain ⟨⟨_, node⟩, mem, rfl⟩ := List.mem_map.mp h
    exact plain.clear_of_mem mem

end Plain

end FieldList

theorem fieldKey_ne_empty (name : Option String) (index : Nat) : fieldKey name index ≠ "" := by
  have position : toString index ≠ "" := by
    intro h
    rw [Nat.toString_eq_ofList_toDigits, ← String.toList_inj, String.toList_ofList] at h
    exact List.ne_nil_of_length_pos Nat.length_toDigits_pos h
  cases name with
  | none => exact position
  | some name =>
    rw [fieldKey]
    split
    · exact position
    · assumption

namespace Schema

theorem names_describe (s : Schema) (index start : Nat) :
    (s.describe index start).tops.map FieldDefinition.name = s.keysFrom index := by
  induction s generalizing index start with
  | nil => rfl
  | leaf name slot rest ih =>
    rw [describe, FieldList.tops, List.map_cons, ih, keysFrom_leaf]
  | group name inner rest _ ih =>
    rw [describe, FieldList.tops, List.map_cons, ih, keysFrom_group]

theorem plain_describe {s : Schema} {index : Nat} (start : Nat) (distinct : s.DistinctFrom index)
    (outermost : ∀ key ∈ s.keysFrom index, '.' ∉ key.toList)
    (inside : ∀ t ∈ s.nested, ∀ key ∈ t.keys, '.' ∉ key.toList) :
    (s.describe index start).Plain := by
  induction s generalizing index start with
  | nil => exact .nil
  | leaf name slot rest ih =>
    rw [keysFrom_leaf, List.forall_mem_cons] at outermost
    refine .cons ⟨fieldKey_ne_empty name index, outermost.1⟩ ?_ .nil
      (ih _ distinct.rest_leaf outermost.2 inside)
    rw [names_describe]
    exact distinct.not_mem_leaf
  | group name inner rest ih_inner ih_rest =>
    rw [keysFrom_group, List.forall_mem_cons] at outermost
    rw [nested, List.forall_mem_cons, List.forall_mem_append] at inside
    refine .cons ⟨fieldKey_ne_empty name index, outermost.1⟩ ?_
      (ih_inner _ distinct.inner_group inside.1 inside.2.1)
      (ih_rest _ distinct.rest_group outermost.2 inside.2.2)
    rw [names_describe]
    exact distinct.not_mem_group

end Schema

namespace RecordType

theorem plain_layout {R : RecordType} (distinct : R.fields.DistinctKeys)
    (plain : R.fields.PlainKeys) (name : String) : (R.layout name).fields.Plain :=
  Schema.plain_describe 0 (.of_distinctKeys distinct) (plain _ List.mem_cons_self)
    fun t ht => plain t (List.mem_cons_of_mem _ ht)

end RecordType

namespace Layout

def heading (l : Layout) : String :=
  let title := if l.name = "" then "record" else l.name
  s!"{title}: {l.size.toNat} bytes, {l.fields.count} fields\n" ++
    "  offset  length  order  type    name\n"

/-- Every line of the table ends with the full name of its row. -/
theorem text_eq (l : Layout) :
    l.text = l.heading ++
      String.join ((l.fields.rows "").map fun row => columns row.2 ++ row.1 ++ "\n") := rfl

/-- The lookup takes a path apart at its points and goes down name by name, so a name with a point
is never found. In the layout of a record type whose keys are distinct and without points on every
level, the paths that are found are the full names at the ends of the table's lines, each leading to
the definition of its row, and the rows list all definitions once, in preorder. -/
theorem find?_inverts_rows :
    (∀ (l : Layout) (path : String),
      l.find? path = l.fields.resolve? (Text.split '.' path) ∧
      ∀ d children, l.find? path = some (d, children) → '.' ∉ d.name.toList) ∧
    ∀ (R : RecordType) (name : String), R.fields.DistinctKeys → R.fields.PlainKeys →
      let l := R.layout name
      let rows := l.fields.rows ""
      l.text = l.heading ++
        String.join (rows.map fun row => columns row.2 ++ row.1 ++ "\n") ∧
      (∀ path, l.find? path ≠ none ↔ path ∈ rows.map Prod.fst) ∧
      rows.map (fun row => l.find? row.1) = l.fields.nodes.map some ∧
      rows.map Prod.snd = l.fields.nodes.map Prod.fst ∧
      (rows.map Prod.fst).Nodup := by
  refine ⟨?_, ?_⟩
  · intro l path
    refine ⟨l.find?_eq_resolve? path, ?_⟩
    intro d children found
    rw [find?_eq_resolve?] at found
    exact Text.free_of_mem_split (FieldList.name_mem_of_resolve? found)
  · intro R name distinct plain l rows
    have clear := R.plain_layout distinct plain name
    refine ⟨l.text_eq, ?_, ?_, l.fields.rows_snd, clear.nodup_rows⟩
    · intro path
      rw [find?_eq_resolve?]
      exact (clear.mem_rows_iff path).symm
    · simp only [find?_eq_resolve?]
      exact clear.resolve?_rows

/-- Names that come back on several levels and are printed in full, and one that is looked up with a
point at its end. -/
theorem find?_inverts_rows_deep :
    let l := Samples.deep.layout "deep"
    let rows := l.fields.rows ""
    Samples.deep.fields.DistinctKeys ∧ Samples.deep.fields.PlainKeys ∧
      rows.map Prod.fst = ["d", "in", "in.in", "in.in.b", "in.in.in", "in.in.in.in",
        "in.in.in.in.v", "in.in.in.a", "in.c", "tail", "tail.in", "tail.in.v", "tail.a"] ∧
      l.text =
        "deep: 19 bytes, 3 fields\n" ++
        "  offset  length  order  type    name\n" ++
        "       0       8  le     int     d\n" ++
        "       8       8  -      record  in\n" ++
        "       8       7  -      record  in.in\n" ++
        "       8       4  be     uint    in.in.b\n" ++
        "      12       3  -      record  in.in.in\n" ++
        "      12       1  -      record  in.in.in.in\n" ++
        "      12       1  -      uint    in.in.in.in.v\n" ++
        "      13       2  le     uint    in.in.in.a\n" ++
        "      15       1  -      bool    in.c\n" ++
        "      16       3  -      record  tail\n" ++
        "      16       1  -      record  tail.in\n" ++
        "      16       1  -      uint    tail.in.v\n" ++
        "      17       2  le     uint    tail.a\n" ∧
      l.find? "in.in.in" ≠ none ∧ l.find? "in.in.in." = none ∧
      ∀ d children, l.find? "tail.in" = some (d, children) → '.' ∉ d.name.toList := by
  intro l rows
  have distinct : Samples.deep.fields.DistinctKeys := by decide
  have plain : Samples.deep.fields.PlainKeys := by decide
  have names : rows.map Prod.fst = ["d", "in", "in.in", "in.in.b", "in.in.in", "in.in.in.in",
      "in.in.in.in.v", "in.in.in.a", "in.c", "tail", "tail.in", "tail.in.v", "tail.a"] := by
    decide
  obtain ⟨lookup, described⟩ := find?_inverts_rows
  obtain ⟨printed, found, -, -, -⟩ := described Samples.deep "deep" distinct plain
  refine ⟨distinct, plain, names, printed.trans ?_, ?_, ?_, (lookup l "tail.in").2⟩
  · decide +kernel
  · rw [found, names]
    decide
  · by_contra h
    have row := (found "in.in.in.").mp h
    rw [names] at row
    revert row
    decide

end Layout

end WireRecords
