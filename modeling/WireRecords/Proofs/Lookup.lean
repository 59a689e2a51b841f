import WireRecords.Layout
import WireRecords.Proofs.DottedNames

/-!
# Dotted paths

Looking up a path is splitting it at its points and taking, component by component, the first field
of exactly that name. So a path made of names that hold no point leads through just these names.
-/

namespace WireRecords

namespace Text

theorem pieces_span (separator : Char) (cs : List Char) :
    pieces separator cs =
      match cs.span fun c => c ≠ separator with
      | (head, []) => [head]
      | (head, _ :: tail) => head :: pieces separator tail := by
  induction cs with
  | nil => rfl
  | cons c cs ih =>
    simp only [List.span_eq_takeWhile_dropWhile] at ih ⊢
    by_cases h : c = separator
    · simp [pieces, h]
    · rw [pieces, if_neg h, ih]
      simp only [List.takeWhile_cons, List.dropWhile_cons, ne_eq, h, not_false_eq_true, decide_true,
        if_true]
      cases cs.dropWhile fun c => c ≠ separator <;> rfl

end Text

namespace FieldList

def first? : FieldList → String → Option (FieldDefinition × FieldList)
  | nil, _ => none
  | cons d children rest, name => if d.name = name then some (d, children) else rest.first? name

/-- The field that a list of names leads to: the first one of the first name, and from there on
among its children. -/
def resolve? : FieldList → List String → Option (FieldDefinition × FieldList)
  | _, [] => none
  | fields, [name] => fields.first? name
  | fields, name :: names => (fields.first? name).bind fun node => node.2.resolve? names

/-- All definitions in preorder, each with its children. -/
def nodes : FieldList → List (FieldDefinition × FieldList)
  | nil => []
  | cons d children rest => (d, children) :: (children.nodes ++ rest.nodes)

theorem resolve?_nil (names : List String) : nil.resolve? names = none := by
  cases names with
  | nil => rfl
  | cons name names => cases names <;> rfl

theorem resolve?_cons_of_ne {d : FieldDefinition} {name : String} (h : d.name ≠ name)
    (children rest : FieldList) (names : List String) :
    (cons d children rest).resolve? (name :: names) = rest.resolve? (name :: names) := by
  cases names <;> simp only [resolve?, first?, if_neg h]

theorem resolve?_cons_self {d : FieldDefinition} {names : List String} (h : names ≠ [])
    (children rest : FieldList) :
    (cons d children rest).resolve? (d.name :: names) = children.resolve? names := by
  cases names with
  | nil => exact absurd rfl h
  | cons name names => simp only [resolve?, first?, if_true, Option.bind_some]

theorem find?_eq_resolve? (fields : FieldList) (path : List Char) :
    fields.find? path = fields.resolve? ((Text.pieces '.' path).map String.ofList) := by
  induction fields generalizing path with
  | nil => rw [resolve?_nil, find?]
  | cons d children rest ih_children ih_rest =>
    have pieces := Text.pieces_span '.' path
    have skip := ih_rest path
    rw [find?]
    -- the text in front of the first point is compared with the name of the first field
    cases hs : path.span fun c => c ≠ '.' with
    | mk head tail =>
      rw [hs] at pieces
      have other : d.name.toList ≠ head → d.name ≠ String.ofList head := by
        intro ne h
        rw [h, String.toList_ofList] at ne
        exact ne rfl
      cases tail with
      | nil =>
        rw [pieces, List.map_cons, List.map_nil] at skip ⊢
        by_cases same : d.name.toList = head
        · subst same
          rw [String.ofList_toList, resolve?, first?, if_pos rfl]
          exact if_pos rfl
        · rw [resolve?_cons_of_ne (other same), ← skip]
          exact if_neg same
      | cons point tail =>
        rw [pieces, List.map_cons] at skip ⊢
        by_cases same : d.name.toList = head
        · subst same
          have more : (Text.pieces '.' tail).map String.ofList ≠ [] := fun h =>
            Text.pieces_ne_nil '.' tail (List.map_eq_nil_iff.mp h)
          rw [String.ofList_toList, resolve?_cons_self more, ← ih_children]
          exact if_pos rfl
        · rw [resolve?_cons_of_ne (other same), ← skip]
          exact if_neg same

theorem mem_nodes_of_first? {fields : FieldList} {name : String}
    {node : FieldDefinition × FieldList} (h : fields.first? name = some node) :
    node ∈ fields.nodes := by
  induction fields with
  | nil => cases h
  | cons d children rest _ ih =>
    rw [first?] at h
    split at h
    · cases h
      exact List.mem_cons_self
    · exact List.mem_cons_of_mem _ (List.mem_append_right _ (ih h))

theorem nodes_subset_of_mem {fields : FieldList} {node : FieldDefinition × FieldList}
    (h : node ∈ fields.nodes) : node.2.nodes ⊆ fields.nodes := by
  induction fields with
  | nil => cases h
  | cons d children rest ih_children ih_rest =>
    rcases List.mem_cons.mp h with rfl | h
    · exact List.subset_cons_of_subset _ (List.subset_append_left _ _)
    · apply List.subset_cons_of_subset
      rcases List.mem_append.mp h with h | h
      · exact List.Subset.trans (ih_children h) (List.subset_append_left _ _)
      · exact List.Subset.trans (ih_rest h) (List.subset_append_right _ _)

theorem mem_nodes_of_resolve? {fields : FieldList} {names : List String}
    {node : FieldDefinition × FieldList} (h : fields.resolve? names = some node) :
    node ∈ fields.nodes := by
  induction names generalizing fields with
  | nil => cases h
  | cons name names ih =>
    cases names with
    | nil => exact mem_nodes_of_first? h
    | cons name' names =>
      obtain ⟨middle, first, inner⟩ := Option.bind_eq_some_iff.mp h
      exact nodes_subset_of_mem (mem_nodes_of_first? first) (ih inner)

theorem name_of_first? {fields : FieldList} {name : String} {node : FieldDefinition × FieldList}
    (h : fields.first? name = some node) : node.1.name = name := by
  induction fields with
  | nil => cases h
  | cons d children rest _ ih =>
    rw [first?] at h
    split at h
    · cases h
      assumption
    · exact ih h

theorem name_mem_of_resolve? {fields : FieldList} {names : List String}
    {node : FieldDefinition × FieldList} (h : fields.resolve? names = some node) :
    node.1.name ∈ names := by
  induction names generalizing fields with
  | nil => cases h
  | cons name names ih =>
    cases names with
    | nil => exact List.mem_singleton.mpr (name_of_first? h)
    | cons name' names =>
      obtain ⟨middle, -, inner⟩ := Option.bind_eq_some_iff.mp h
      exact List.mem_cons_of_mem _ (ih inner)

end FieldList

namespace Layout

theorem find?_eq_resolve? (l : Layout) (path : String) :
    l.find? path = l.fields.resolve? (Text.split '.' path) :=
  l.fields.find?_eq_resolve? path.toList

end Layout

end WireRecords
