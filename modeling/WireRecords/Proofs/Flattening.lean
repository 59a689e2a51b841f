import WireRecords.Proofs.Conformance
import WireRecords.Proofs.DottedNames
import WireRecords.Proofs.Reloading

/-!
# Flattening

A document is loaded leaf by leaf: depth first, the members of an object by the bytes of their
names. A leaf that is not null gives its key, the names on the way down to it joined by points, and
of several with one key the last one counts. Where the names are clear no two leaves share a key.
-/

namespace WireRecords

namespace Json

mutual

/-- The values inside a value that are no objects, each with the names on the way down to it. -/
def leaves : Json → List (List String × Json)
  | object ms => memberLeaves ms
  | j => [([], j)]

def memberLeaves : List (String × Json) → List (List String × Json)
  | [] => []
  | (name, j) :: ms =>
    j.leaves.map (fun (names, leaf) => (name :: names, leaf)) ++ memberLeaves ms

end

theorem leaves_of_flat {j : Json} (flat : ∀ ms, j ≠ object ms) : j.leaves = [([], j)] := by
  cases j with
  | object ms => exact absurd rfl (flat ms)
  | _ => rfl

theorem mem_memberLeaves_iff {ms : List (String × Json)} {path : List String} {leaf : Json} :
    (path, leaf) ∈ memberLeaves ms ↔
      ∃ name names j, path = name :: names ∧ (name, j) ∈ ms ∧ (names, leaf) ∈ j.leaves := by
  induction ms with
  | nil => simp [memberLeaves]
  | cons m ms ih =>
    rw [memberLeaves, List.mem_append, ih]
    constructor
    · rintro (own | ⟨name, names, j, eq, member, inside⟩)
      · obtain ⟨⟨names, leaf⟩, inside, eq⟩ := List.mem_map.mp own
        cases eq
        exact ⟨m.1, names, m.2, rfl, List.mem_cons_self, inside⟩
      · exact ⟨name, names, j, eq, List.mem_cons_of_mem _ member, inside⟩
    · rintro ⟨name, names, j, rfl, member, inside⟩
      rcases List.mem_cons.mp member with same | member
      · subst same
        exact .inl (List.mem_map.mpr ⟨_, inside, rfl⟩)
      · exact .inr ⟨name, names, j, rfl, member, inside⟩

theorem mem_leaves_iff_of_flat {j leaf : Json} (flat : ∀ ms, j ≠ .object ms) {path : List String} :
    (path, leaf) ∈ j.leaves ↔ j.at? path = some leaf ∧ ∀ ms, leaf ≠ .object ms := by
  rw [leaves_of_flat flat, List.mem_singleton, Prod.mk.injEq]
  constructor
  · rintro ⟨rfl, rfl⟩
    exact ⟨rfl, flat⟩
  · rintro ⟨found, -⟩
    cases path with
    | nil => exact ⟨rfl, (Option.some.inj found).symm⟩
    | cons name names =>
      have none_below : j.member? name = none := by
        cases j with
        | object ms => exact absurd rfl (flat ms)
        | _ => rfl
      rw [at?, none_below] at found
      cases found

theorem Plain.mem_leaves_iff {j leaf : Json} (plain : j.Plain) {path : List String} :
    (path, leaf) ∈ j.leaves ↔ j.at? path = some leaf ∧ ∀ ms, leaf ≠ .object ms := by
  induction plain generalizing path with
  | @object ms sorted _ ih =>
    rw [leaves, mem_memberLeaves_iff]
    constructor
    · rintro ⟨name, names, j, rfl, member, inside⟩
      obtain ⟨found, flat⟩ := (ih (name, j) member).mp inside
      have at_name := Entries.find?_of_mem sorted.nodup_keys member
      exact ⟨Option.bind_eq_some_iff.mpr ⟨j, at_name, found⟩, flat⟩
    · rintro ⟨found, flat⟩
      cases path with
      | nil =>
        cases found
        exact absurd rfl (flat ms)
      | cons name names =>
        obtain ⟨j, at_name, found⟩ := Option.bind_eq_some_iff.mp found
        have member := Entries.mem_of_find? at_name
        exact ⟨name, names, j, rfl, member, (ih (name, j) member).mpr ⟨found, flat⟩⟩
  | _ => exact mem_leaves_iff_of_flat (by rintro _ ⟨⟩)

/-- One leaf stands in front of another: its path comes first, the names compared by their bytes. -/
def Before (a b : List String × Json) : Prop := a.1.map Text.bytes < b.1.map Text.bytes

theorem pairwise_memberLeaves {ms : List (String × Json)} (sorted : Entries.Sorted ms)
    (inside : ∀ m ∈ ms, m.2.leaves.Pairwise Before) : (memberLeaves ms).Pairwise Before := by
  induction ms with
  | nil => exact .nil
  | cons m ms ih =>
    obtain ⟨first, sorted⟩ := List.pairwise_cons.mp sorted
    rw [List.forall_mem_cons] at inside
    rw [memberLeaves, List.pairwise_append]
    refine ⟨?_, ih sorted inside.2, ?_⟩
    · refine List.pairwise_map.mpr (inside.1.imp ?_)
      intro a b less
      exact List.cons_lt_cons_iff.mpr (.inr ⟨rfl, less⟩)
    · intro a own b other
      obtain ⟨⟨names, leaf⟩, -, rfl⟩ := List.mem_map.mp own
      obtain ⟨name, names', j, eq, member, -⟩ := mem_memberLeaves_iff.mp other
      have less := Text.lt_iff_bytes_lt.mp (first (name, j) member)
      rw [Before, eq]
      exact List.cons_lt_cons_iff.mpr (.inl less)

theorem Plain.pairwise_leaves {j : Json} (plain : j.Plain) : j.leaves.Pairwise Before := by
  induction plain with
  | object sorted _ ih => exact pairwise_memberLeaves sorted ih
  | _ => exact List.pairwise_singleton _ _

theorem Plain.nodup_paths {j : Json} (plain : j.Plain) : (j.leaves.map Prod.fst).Nodup := by
  apply List.pairwise_map.mpr
  apply plain.pairwise_leaves.imp
  intro a b less same
  rw [Before, same] at less
  exact List.lt_irrefl _ less

end Json

theorem Setting.exists_ofJson?_iff {j : Json} :
    (∃ value, ofJson? j = some value) ↔ j ≠ .null ∧ ∀ ms, j ≠ .object ms := by
  cases j with
  | unsigned n =>
    rw [ofJson?]
    split <;> simp
  | _ => simp [ofJson?]

namespace Settings

/-- The setting that a leaf gives, if it is not null. -/
def settingOf? (leaf : List String × Json) : Option (String × Setting) :=
  (Setting.ofJson? leaf.2).map fun value => (Text.dotted leaf.1, value)

theorem flattenMember_eq_of_flat {j : Json} (flat : ∀ ms, j ≠ .object ms) (parents : List String) :
    flattenMember (Text.dotted parents) j =
      j.leaves.filterMap fun (names, leaf) => settingOf? (parents ++ names, leaf) := by
  rw [flattenMember_of_flat flat, Json.leaves_of_flat flat]
  cases given : Setting.ofJson? j <;> simp [settingOf?, given]

mutual

/-- Flattening goes through the leaves. -/
theorem flattenMember_eq (parents : List String) : ∀ j : Json,
    flattenMember (Text.dotted parents) j =
      j.leaves.filterMap fun (names, leaf) => settingOf? (parents ++ names, leaf)
  | .object ms => by
    rw [flattenMember, Json.leaves, flattenMembers_eq parents ms]
  | .null | .bool _ | .unsigned _ | .signed _ | .float _ | .string _ | .array _ =>
    flattenMember_eq_of_flat (by rintro _ ⟨⟩) parents

theorem flattenMembers_eq (parents : List String) : ∀ ms : List (String × Json),
    flattenMembers (Text.dotted parents) ms =
      (Json.memberLeaves ms).filterMap fun (names, leaf) => settingOf? (parents ++ names, leaf)
  | [] => rfl
  | (name, j) :: ms => by
    have key : dottedKey (Text.dotted parents) name = Text.dotted (parents ++ [name]) :=
      (Text.dotted_concat parents name).symm
    rw [flattenMembers, key, flattenMember_eq (parents ++ [name]) j, flattenMembers_eq parents ms,
      Json.memberLeaves, List.filterMap_append, List.filterMap_map]
    simp only [List.append_assoc, List.singleton_append, Function.comp_def]

end

theorem flattenMembers_root (ms : List (String × Json)) :
    flattenMembers "" ms = (Json.object ms).leaves.filterMap settingOf? :=
  flattenMembers_eq [] ms

variable {leaves before after : List (List String × Json)} {path : List String} {leaf : Json}
  {key : String} {value : Setting}

theorem find?_settings_eq_none (nulls : ∀ l ∈ leaves, Text.dotted l.1 = key → l.2 = .null) :
    Entries.find? (leaves.filterMap settingOf?).reverse key = none := by
  rw [Entries.find?_eq_none_iff, List.map_reverse, List.mem_reverse, List.mem_map]
  rintro ⟨e, member, same⟩
  obtain ⟨l, at_l, given⟩ := List.mem_filterMap.mp member
  obtain ⟨value, read, rfl⟩ := Option.map_eq_some_iff.mp given
  rw [nulls l at_l same] at read
  cases read

theorem get?_setAll_last (s : Settings) (split : leaves = before ++ (path, leaf) :: after)
    (given : Setting.ofJson? leaf = some value)
    (nulls : ∀ l ∈ after, Text.dotted l.1 = Text.dotted path → l.2 = .null) :
    (s.setAll (leaves.filterMap settingOf?)).get? (Text.dotted path) = some value := by
  have setting : settingOf? (path, leaf) = some (Text.dotted path, value) := by
    rw [settingOf?, given, Option.map_some]
  rw [get?_setAll, split, List.filterMap_append, List.filterMap_cons_some setting,
    List.reverse_append, List.reverse_cons, List.append_assoc, Entries.find?_append,
    find?_settings_eq_none nulls, Option.none_or, List.singleton_append, Entries.find?, if_pos rfl,
    Option.some_or]

theorem get?_setAll_none (s : Settings)
    (nulls : ∀ l ∈ leaves, Text.dotted l.1 = key → l.2 = .null) :
    (s.setAll (leaves.filterMap settingOf?)).get? key = s.get? key := by
  rw [get?_setAll, find?_settings_eq_none nulls, Option.none_or]

theorem nodup_keys_of_clear {ms : List (String × Json)} (plain : (Json.object ms).Plain)
    (clear : ∀ l ∈ (Json.object ms).leaves, ∀ name ∈ l.1, Text.Clear name) :
    ((Json.object ms).leaves.map fun l => Text.dotted l.1).Nodup := by
  have joined : ((Json.object ms).leaves.map fun l => Text.dotted l.1) =
      ((Json.object ms).leaves.map Prod.fst).map Text.dotted := by
    rw [List.map_map]
    rfl
  rw [joined]
  apply Text.nodup_dotted plain.nodup_paths
  · intro names at_names
    obtain ⟨l, member, rfl⟩ := List.mem_map.mp at_names
    rw [Json.leaves] at member
    obtain ⟨name, names, j, eq, -⟩ := Json.mem_memberLeaves_iff.mp member
    rw [eq]
    exact List.cons_ne_nil _ _
  · intro names at_names
    obtain ⟨l, member, rfl⟩ := List.mem_map.mp at_names
    exact clear l member

/-- Loading a text that is no object changes nothing. Any other text is loaded as a whole: the
leaves are visited depth first, the members of an object by the bytes of their names, and a key has
the value of the last leaf that is not null and whose names, but for empty ones in front, join to
the key; without any it has the value it had. Where no name is empty or has a point, the leaves have
keys of their own and every one that is not null is kept. -/
theorem loadJson_flattens (s : Settings) (text : String) :
    ((∀ ms, Json.parse? text ≠ some (.object ms)) →
      s.perform (.loadJson text) = (s, .loaded false)) ∧
    ∀ ms, Json.parse? text = some (.object ms) →
      let leaves := (Json.object ms).leaves
      (∀ path leaf, (path, leaf) ∈ leaves ↔
        (Json.object ms).at? path = some leaf ∧ ∀ ms', leaf ≠ .object ms') ∧
      leaves.Pairwise Json.Before ∧
      ∃ loaded, s.perform (.loadJson text) = (loaded, .loaded true) ∧
        loaded.positional = s.positional ∧
        (∀ before path leaf after, leaves = before ++ (path, leaf) :: after → leaf ≠ .null →
          (∀ l ∈ after, Text.dotted l.1 = Text.dotted path → l.2 = .null) →
            ∃ value, Setting.ofJson? leaf = some value ∧
              loaded.get? (Text.dotted path) = some value) ∧
        (∀ key, (∀ l ∈ leaves, Text.dotted l.1 = key → l.2 = .null) →
          loaded.get? key = s.get? key) ∧
        ((∀ l ∈ leaves, ∀ name ∈ l.1, Text.Clear name) →
          (leaves.map fun l => Text.dotted l.1).Nodup ∧
          ∀ path leaf, (path, leaf) ∈ leaves → leaf ≠ .null →
            ∃ value, Setting.ofJson? leaf = some value ∧
              loaded.get? (".".intercalate path) = some value) := by
  refine ⟨?_, ?_⟩
  · intro other
    have nothing : documentMembers? text = none := by
      rw [documentMembers?]
      split
      · next ms read => exact absurd read (other ms)
      · rfl
    rw [perform, loadJson?, nothing]
    rfl
  intro ms read leaves
  have document : documentMembers? text = some ms := by rw [documentMembers?, read]
  have plain := plain_of_documentMembers? document
  have value_of {path : List String} {leaf : Json} (member : (path, leaf) ∈ leaves)
      (filled : leaf ≠ .null) : ∃ value, Setting.ofJson? leaf = some value :=
    Setting.exists_ofJson?_iff.mpr ⟨filled, (plain.mem_leaves_iff.mp member).2⟩
  refine ⟨fun path leaf => plain.mem_leaves_iff, plain.pairwise_leaves,
    s.setAll (leaves.filterMap settingOf?), ?_, rfl, ?_, ?_, ?_⟩
  · rw [perform, loadJson?, document, Option.map_some, flattenMembers_root]
    rfl
  · intro before path leaf after split filled nulls
    have member : (path, leaf) ∈ leaves := split ▸ List.mem_append_right _ List.mem_cons_self
    obtain ⟨value, given⟩ := value_of member filled
    exact ⟨value, given, get?_setAll_last s split given nulls⟩
  · intro key nulls
    exact get?_setAll_none s nulls
  · intro clear
    have distinct : (leaves.map fun l => Text.dotted l.1).Nodup := nodup_keys_of_clear plain clear
    refine ⟨distinct, ?_⟩
    intro path leaf member filled
    obtain ⟨value, given⟩ := value_of member filled
    obtain ⟨before, after, split⟩ := List.append_of_mem member
    refine ⟨value, given, ?_⟩
    rw [← Text.dotted_of_clear (clear _ member)]
    refine get?_setAll_last s split given ?_
    -- no leaf behind this one has its key
    intro l behind same
    rw [split, List.map_append, List.map_cons] at distinct
    have fresh := (List.nodup_cons.mp (List.nodup_append.mp distinct).2.1).1
    exact absurd (same ▸ List.mem_map_of_mem behind) fresh

/-- A path and a name with a point in it that give one key, an empty name, and a null. -/
theorem loadJson_flattens_colliding :
    let s := empty.setAll [("k", .text "old"), ("n", .bool false)]
    let text := "\x7b\"\":\x7b\"k\":1\x7d,\"a\":\x7b\"b\":2\x7d,\"a.b\":true,\"n\":null\x7d"
    let clear := "\x7b\"a\":\x7b\"b\":2\x7d,\"n\":null\x7d"
    s.perform (.loadJson "[]") = (s, .loaded false) ∧
    (∃ loaded, s.perform (.loadJson text) = (loaded, .loaded true) ∧
      loaded.get? "k" = some (.int 1) ∧ loaded.get? "a.b" = some (.bool true) ∧
      loaded.get? "n" = some (.bool false)) ∧
    ∃ loaded, s.perform (.loadJson clear) = (loaded, .loaded true) ∧
      loaded.get? "a.b" = some (.int 2) := by
  intro s text clear
  let ms : List (String × Json) := [("", .object [("k", .unsigned 1)]),
    ("a", .object [("b", .unsigned 2)]), ("a.b", .bool true), ("n", .null)]
  let ms' : List (String × Json) := [("a", .object [("b", .unsigned 2)]), ("n", .null)]
  have one {name : String} {n : UInt64} : (Json.object [(name, .unsigned n)]).Plain :=
    .object (List.pairwise_singleton _ _) (List.forall_mem_singleton.mpr (.unsigned n))
  have plain : (Json.object ms).Plain := by
    refine .object (by rw [Entries.Sorted]; decide) ?_
    simp only [ms, List.forall_mem_cons]
    exact ⟨one, one, .bool true, .null, List.forall_mem_nil _⟩
  have plain' : (Json.object ms').Plain := by
    refine .object (by rw [Entries.Sorted]; decide) ?_
    simp only [ms', List.forall_mem_cons]
    exact ⟨one, .null, List.forall_mem_nil _⟩
  have reads {t : String} {j : Json} (plain : j.Plain)
      (same : t = String.ofList (j.render none 0 ++ [])) : Json.parse? t = some j.normal := by
    rw [same, plain.parse?_render none rfl]
  have nothing := reads (t := "[]") (.array (List.forall_mem_nil _)) (by decide +kernel)
  have read : Json.parse? text = some (.object ms) := reads plain (by decide +kernel)
  have read' : Json.parse? clear = some (.object ms') := reads plain' (by decide +kernel)
  obtain ⟨refused, -⟩ := loadJson_flattens s "[]"
  obtain ⟨-, -, loaded, load, -, last, kept, -⟩ := (loadJson_flattens s text).2 ms read
  obtain ⟨-, -, loaded', load', -, -, -, own⟩ := (loadJson_flattens s clear).2 ms' read'
  refine ⟨refused ?_, ⟨loaded, load, ?_, ?_, ?_⟩, loaded', load', ?_⟩
  · rw [nothing]
    rintro ms ⟨⟩
  · obtain ⟨value, given, found⟩ := last [] ["", "k"] (.unsigned 1)
      [(["a", "b"], .unsigned 2), (["a.b"], .bool true), (["n"], .null)] rfl (by simp) (by
        simp only [List.forall_mem_cons]
        exact ⟨fun h => absurd h (by decide), fun h => absurd h (by decide), fun _ => trivial,
          List.forall_mem_nil _⟩)
    cases given
    exact found
  · obtain ⟨value, given, found⟩ := last [(["", "k"], .unsigned 1), (["a", "b"], .unsigned 2)]
      ["a.b"] (.bool true) [(["n"], .null)] rfl (by simp)
      (List.forall_mem_singleton.mpr fun _ => rfl)
    cases given
    exact found
  · have nulls : ∀ l ∈ (Json.object ms).leaves, Text.dotted l.1 = "n" → l.2 = .null := by
      simp only [ms, Json.leaves, Json.memberLeaves, List.map_cons, List.map_nil, List.append_nil,
        List.cons_append, List.nil_append, List.forall_mem_cons]
      exact ⟨fun h => absurd h (by decide), fun h => absurd h (by decide),
        fun h => absurd h (by decide), fun _ => trivial, List.forall_mem_nil _⟩
    rw [kept "n" nulls]
    rfl
  · have plain_names : ∀ l ∈ (Json.object ms').leaves, ∀ name ∈ l.1, Text.Clear name := by
      simp only [ms', Json.leaves, Json.memberLeaves, List.map_cons, List.map_nil, List.append_nil,
        List.cons_append, List.nil_append, List.forall_mem_cons]
      decide
    obtain ⟨value, given, found⟩ := (own plain_names).2 ["a", "b"] (.unsigned 2)
      List.mem_cons_self (by simp)
    cases given
    exact found

end Settings

end WireRecords
