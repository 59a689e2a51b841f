import WireRecords.KeyMap
import Mathlib.Data.List.Sort

/-!
# Entries as a map

Entries in key order are told by their lookups. Setting the entries of a list one after the other
leaves, for each key, the last value that the list has for it; an entry that a later one of the same
key replaces does not show.
-/

namespace WireRecords.Entries

variable {α : Type}

def insertAll (m es : List (String × α)) : List (String × α) :=
  es.foldl (fun m e => insert m e.1 e.2) m

theorem find?_eq_none_iff {m : List (String × α)} {key : String} :
    find? m key = none ↔ key ∉ m.map Prod.fst := by
  induction m with
  | nil => simp [find?]
  | cons e rest ih =>
    by_cases h : e.1 = key
    · simp [find?, h]
    · simp [find?, h, Ne.symm h, ih]

theorem find?_append (m m' : List (String × α)) (key : String) :
    find? (m ++ m') key = (find? m key).or (find? m' key) := by
  induction m with
  | nil => rfl
  | cons e rest ih =>
    rw [List.cons_append, find?, find?, ih]
    split <;> rfl

/-- Where the keys are distinct, every entry is found under its own key. -/
theorem find?_of_mem {m : List (String × α)} (distinct : (m.map Prod.fst).Nodup)
    {e : String × α} (h : e ∈ m) : find? m e.1 = some e.2 := by
  induction m with
  | nil => cases h
  | cons head rest ih =>
    obtain ⟨fresh, distinct⟩ := List.nodup_cons.mp distinct
    rcases List.mem_cons.mp h with rfl | h
    · exact if_pos rfl
    · have other : head.1 ≠ e.1 := fun same => fresh (same ▸ List.mem_map_of_mem h)
      rw [find?, if_neg other, ih distinct h]

theorem mem_of_find? {m : List (String × α)} {key : String} {value : α}
    (h : find? m key = some value) : (key, value) ∈ m := by
  induction m with
  | nil => cases h
  | cons e rest ih =>
    rw [find?] at h
    split at h
    · next same =>
      cases h
      cases same
      exact List.mem_cons_self
    · exact List.mem_cons_of_mem _ (ih h)

theorem find?_of_unique {m : List (String × α)} {key : String} {value : α}
    (member : (key, value) ∈ m) (unique : ∀ other, (key, other) ∈ m → other = value) :
    find? m key = some value := by
  cases found : find? m key with
  | some other => rw [unique other (mem_of_find? found)]
  | none => exact absurd (List.mem_map_of_mem member) (find?_eq_none_iff.mp found)

theorem Sorted.nodup_keys {m : List (String × α)} (h : Sorted m) : (m.map Prod.fst).Nodup := by
  apply List.pairwise_map.mpr
  apply h.imp
  intro a b lt same
  exact String.lt_irrefl a.1 (by rwa [← same] at lt)

theorem Sorted.ext {m m' : List (String × α)} (h : Sorted m) (h' : Sorted m')
    (same : ∀ key, find? m key = find? m' key) : m = m' := by
  have : Std.Antisymm fun a b : String × α => a.1 < b.1 :=
    ⟨fun _ _ lt gt => absurd gt (String.lt_asymm lt)⟩
  have : Std.Irrefl fun a b : String × α => a.1 < b.1 := ⟨fun a => String.lt_irrefl a.1⟩
  apply List.Pairwise.eq_of_mem_iff h h'
  intro e
  constructor
  · intro he
    exact mem_of_find? ((same e.1).symm.trans (find?_of_mem h.nodup_keys he))
  · intro he
    exact mem_of_find? ((same e.1).trans (find?_of_mem h'.nodup_keys he))

theorem Sorted.insertAll {m : List (String × α)} (h : Sorted m) (es : List (String × α)) :
    Sorted (insertAll m es) := by
  induction es generalizing m with
  | nil => exact h
  | cons e es ih => exact ih (h.insert e.1 e.2)

/-- The last entry of a key decides. -/
theorem find?_insertAll (m es : List (String × α)) (key : String) :
    find? (insertAll m es) key = (find? es.reverse key).or (find? m key) := by
  induction es generalizing m with
  | nil => rfl
  | cons e es ih =>
    rw [insertAll, List.foldl_cons, ← insertAll, ih, find?_insert, List.reverse_cons, find?_append,
      Option.or_assoc]
    congr 1
    rw [find?]
    split <;> rfl

theorem find?_insertAll_of_mem {es : List (String × α)} (distinct : (es.map Prod.fst).Nodup)
    {e : String × α} (h : e ∈ es) : find? (insertAll [] es) e.1 = some e.2 := by
  have distinct' : (es.reverse.map Prod.fst).Nodup := by
    rw [List.map_reverse]
    exact List.nodup_reverse.mpr distinct
  rw [find?_insertAll, find?_of_mem distinct' (List.mem_reverse.mpr h), Option.some_or]

theorem mem_of_find?_insertAll {es : List (String × α)} {key : String} {value : α}
    (h : find? (insertAll [] es) key = some value) : (key, value) ∈ es := by
  have last : find? es.reverse key = some value := by
    rw [find?_insertAll, find?, Option.or_none] at h
    exact h
  exact List.mem_reverse.mp (mem_of_find? last)

theorem insertAll_nil_of_sorted {es : List (String × α)} (h : Sorted es) :
    insertAll [] es = es := by
  have empty : Sorted ([] : List (String × α)) := List.Pairwise.nil
  apply Sorted.ext (empty.insertAll es) h
  intro key
  cases found : find? es key with
  | some value => exact find?_insertAll_of_mem h.nodup_keys (mem_of_find? found)
  | none =>
    apply Option.eq_none_iff_forall_ne_some.mpr
    intro value later
    exact find?_eq_none_iff.mp found (List.mem_map_of_mem (mem_of_find?_insertAll later))

theorem insertAll_shadowed {front back : List (String × α)} {key : String}
    (later : key ∈ back.map Prod.fst) (x y : α) :
    insertAll [] (front ++ (key, x) :: back) = insertAll [] (front ++ (key, y) :: back) := by
  have sorted : Sorted ([] : List (String × α)) := List.Pairwise.nil
  apply Sorted.ext (sorted.insertAll _) (sorted.insertAll _)
  intro k
  simp only [find?_insertAll, List.reverse_append, List.reverse_cons, find?_append]
  by_cases same : key = k
  · subst same
    -- from the end, an entry behind the replaced one is met first
    have found : find? back.reverse key ≠ none := fun h => by
      rw [find?_eq_none_iff, List.map_reverse, List.mem_reverse] at h
      exact h later
    obtain ⟨value, found⟩ := Option.ne_none_iff_exists'.mp found
    simp only [found, Option.some_or]
  · simp only [find?, same, if_false]

theorem find?_perm {m m' : List (String × α)} (distinct : (m.map Prod.fst).Nodup)
    (perm : m.Perm m') (key : String) : find? m key = find? m' key := by
  have distinct' : (m'.map Prod.fst).Nodup := (perm.map Prod.fst).nodup_iff.mp distinct
  cases found : find? m key with
  | some value =>
    exact (find?_of_mem distinct' (perm.mem_iff.mp (mem_of_find? found))).symm
  | none =>
    have absent := find?_eq_none_iff.mp found
    rw [(perm.map Prod.fst).mem_iff] at absent
    exact (find?_eq_none_iff.mpr absent).symm

theorem Sorted.eq_of_perm {m m' : List (String × α)} (h : Sorted m) (h' : Sorted m')
    (perm : m.Perm m') : m = m' :=
  h.ext h' (find?_perm h.nodup_keys perm)

theorem insertAll_nil_perm {es : List (String × α)} (distinct : (es.map Prod.fst).Nodup) :
    (insertAll [] es).Perm es := by
  have empty : Sorted ([] : List (String × α)) := List.Pairwise.nil
  have keys := (empty.insertAll es).nodup_keys
  rw [List.perm_ext_iff_of_nodup keys.of_map distinct.of_map]
  intro e
  constructor
  · intro member
    exact mem_of_find?_insertAll (find?_of_mem keys member)
  · intro member
    exact mem_of_find? (find?_insertAll_of_mem distinct member)

theorem length_erase_lt {m : List (String × α)} {key : String} {value : α}
    (found : find? m key = some value) : (erase m key).length < m.length := by
  induction m with
  | nil => cases found
  | cons e rest ih =>
    obtain ⟨k, v⟩ := e
    by_cases same : k = key
    · rw [erase, if_pos same]
      exact Nat.lt_succ_of_le (erase_sublist rest key).length_le
    · simp only [find?, if_neg same] at found
      rw [erase, if_neg same]
      exact Nat.succ_lt_succ (ih found)

end WireRecords.Entries

namespace WireRecords.KeyMap

variable {α : Type}

theorem ext_get? {m m' : KeyMap α} (same : ∀ key, m.get? key = m'.get? key) : m = m' := by
  cases m with
  | mk entries sorted =>
    cases m' with
    | mk entries' sorted' =>
      congr
      exact sorted.ext sorted' same

theorem entries_insertAll (m : KeyMap α) (es : List (String × α)) :
    (m.insertAll es).entries = Entries.insertAll m.entries es := by
  induction es generalizing m with
  | nil => rfl
  | cons e es ih => exact ih (m.insert e.1 e.2)

theorem get?_insertAll (m : KeyMap α) (es : List (String × α)) (key : String) :
    (m.insertAll es).get? key = (Entries.find? es.reverse key).or (m.get? key) := by
  rw [get?, entries_insertAll, Entries.find?_insertAll, get?]

/-- Of entries with one key only the last one counts, and then their order does not. -/
theorem insertAll_of_perm (m : KeyMap α) {order es : List (String × α)}
    (perm : order.Perm (ofList es).entries) : m.insertAll order = m.insertAll es := by
  apply ext_get?
  intro key
  have distinct : (order.reverse.map Prod.fst).Nodup := by
    rw [List.map_reverse, List.nodup_reverse, (perm.map Prod.fst).nodup_iff]
    exact (ofList es).sorted.nodup_keys
  have last : Entries.find? (ofList es).entries key = Entries.find? es.reverse key := by
    rw [ofList, entries_insertAll, Entries.find?_insertAll]
    exact Option.or_none
  rw [get?_insertAll, get?_insertAll,
    Entries.find?_perm distinct ((List.reverse_perm order).trans perm), last]

theorem get?_insertAll_entries (m m' : KeyMap α) (key : String) :
    (m.insertAll m'.entries).get? key = (m'.get? key).or (m.get? key) := by
  have distinct : (m'.entries.reverse.map Prod.fst).Nodup := by
    rw [List.map_reverse, List.nodup_reverse]
    exact m'.sorted.nodup_keys
  rw [get?_insertAll, Entries.find?_perm distinct (List.reverse_perm m'.entries), ← get?]

theorem mem_keys_iff {m : KeyMap α} {key : String} : key ∈ m.keys ↔ (m.get? key).isSome := by
  rw [← Option.ne_none_iff_isSome, get?, Ne, Entries.find?_eq_none_iff, not_not]
  rfl

theorem erase_of_get?_eq_none {m : KeyMap α} {key : String} (absent : m.get? key = none) :
    m.erase key = m := by
  apply ext_get?
  intro other
  rw [get?_erase]
  split
  · next same => rw [← same, absent]
  · rfl

end WireRecords.KeyMap
