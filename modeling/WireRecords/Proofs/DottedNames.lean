import WireRecords.Text
import Mathlib.Data.List.Nodup
import Mathlib.Data.List.TakeDrop

/-!
# Dotted names

Names joined by points. Empty names in front leave no point, as a name is put behind a prefix
without one as long as the prefix is empty. Names that are not empty and hold no point are told
apart by what they join to.
-/

namespace WireRecords.Text

theorem pieces_eq_splitOn (separator : Char) (cs : List Char) :
    pieces separator cs = cs.splitOn separator := by
  induction cs with
  | nil => rfl
  | cons c cs ih =>
    rw [pieces, List.splitOn_cons_eq_if_modifyHead, ← ih]
    by_cases h : c = separator
    · rw [if_pos h, if_pos (beq_iff_eq.mpr h)]
    · rw [if_neg h, if_neg (fun hb => h (beq_iff_eq.mp hb))]
      cases hp : pieces separator cs with
      | nil => exact absurd hp (pieces_ne_nil separator cs)
      | cons p ps => rfl

theorem split_intercalate {separator : Char} {texts : List String}
    (free : ∀ t ∈ texts, separator ∉ t.toList) (some_text : texts ≠ []) :
    split separator ((String.singleton separator).intercalate texts) = texts := by
  have free' : ∀ cs ∈ texts.map String.toList, separator ∉ cs := by
    intro cs hcs
    obtain ⟨t, ht, rfl⟩ := List.mem_map.mp hcs
    exact free t ht
  have some_text' : texts.map String.toList ≠ [] := fun h => some_text (List.map_eq_nil_iff.mp h)
  rw [split, pieces_eq_splitOn, String.toList_intercalate, String.toList_singleton,
    List.splitOn_intercalate separator free' some_text', List.map_map]
  simp [Function.comp_def]

theorem intercalate_split (separator : Char) (s : String) :
    (String.singleton separator).intercalate (split separator s) = s := by
  have joined := intercalate_pieces separator s.toList
  rw [← String.toList_inj, String.toList_intercalate, String.toList_singleton, split, List.map_map]
  simpa [Function.comp_def] using joined

theorem free_of_mem_split {separator : Char} {s t : String} (h : t ∈ split separator s) :
    separator ∉ t.toList := by
  obtain ⟨p, hp, rfl⟩ := List.mem_map.mp h
  rw [String.toList_ofList]
  exact not_mem_of_mem_pieces hp

/-- Names joined by points, without the empty ones in front. -/
def dotted (names : List String) : String := ".".intercalate (names.dropWhile fun name => name = "")

/-- Neither empty nor with a point in it. -/
def Clear (name : String) : Prop := name ≠ "" ∧ '.' ∉ name.toList

instance (name : String) : Decidable (Clear name) := inferInstanceAs (Decidable (_ ∧ _))

variable {names names' : List String}

theorem dotted_of_head_ne {name : String} (h : name ≠ "") (names : List String) :
    dotted (name :: names) = ".".intercalate (name :: names) := by
  rw [dotted, List.dropWhile_cons_of_neg]
  simpa using h

theorem dotted_cons_empty (names : List String) : dotted ("" :: names) = dotted names := by
  rw [dotted, List.dropWhile_cons_of_pos (by simp), dotted]

theorem dotted_singleton (name : String) : dotted [name] = name := by
  by_cases h : name = ""
  · subst h
    rfl
  · rw [dotted_of_head_ne h, String.intercalate_singleton]

theorem dotted_concat (names : List String) (name : String) :
    dotted (names ++ [name]) = if dotted names = "" then name else dotted names ++ "." ++ name := by
  induction names with
  | nil => exact dotted_singleton name
  | cons first names ih =>
    by_cases h : first = ""
    · subst h
      rw [List.cons_append, dotted_cons_empty, dotted_cons_empty, ih]
    · have filled : dotted (first :: names) ≠ "" := by
        rw [dotted_of_head_ne h]
        cases names with
        | nil => rwa [String.intercalate_singleton]
        | cons => simp [String.intercalate_cons_cons, h]
      rw [if_neg filled, dotted_of_head_ne h, List.cons_append, dotted_of_head_ne h,
        ← List.cons_append, String.intercalate_append_of_ne_nil (by simp) (by simp),
        String.intercalate_singleton]

theorem dotted_of_clear (clear : ∀ name ∈ names, Clear name) :
    dotted names = ".".intercalate names := by
  cases names with
  | nil => rfl
  | cons name names => exact dotted_of_head_ne (clear name List.mem_cons_self).1 names

theorem split_dotted (clear : ∀ name ∈ names, Clear name) (some_name : names ≠ []) :
    split '.' (dotted names) = names := by
  rw [dotted_of_clear clear]
  exact split_intercalate (fun name h => (clear name h).2) some_name

theorem dotted_inj (clear : ∀ name ∈ names, Clear name) (clear' : ∀ name ∈ names', Clear name)
    (some_name : names ≠ []) (some_name' : names' ≠ []) (h : dotted names = dotted names') :
    names = names' := by
  rw [← split_dotted clear some_name, h, split_dotted clear' some_name']

theorem nodup_dotted {paths : List (List String)} (distinct : paths.Nodup)
    (some_name : ∀ names ∈ paths, names ≠ [])
    (clear : ∀ names ∈ paths, ∀ name ∈ names, Clear name) : (paths.map dotted).Nodup := by
  refine distinct.map_on ?_
  intro names h names' h' same
  exact dotted_inj (clear names h) (clear names' h') (some_name names h) (some_name names' h') same

end WireRecords.Text
