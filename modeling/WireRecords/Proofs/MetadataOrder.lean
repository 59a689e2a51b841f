import WireRecords.Log.Format
import WireRecords.Proofs.Entries
import WireRecords.Proofs.TextBytes

/-!
# Metadata in order

An entry holds its metadata in any order, with one value for each key. The text of the entry does
not show that order: it lists all keys with their values once, by increasing key.
-/

namespace WireRecords.Log

open Entries (Sorted)

namespace Entry

variable {e : Entry} {order : List (String × String)}

def DistinctKeys (e : Entry) : Prop := (e.metadata.map Prod.fst).Nodup

instance (e : Entry) : Decidable e.DistinctKeys :=
  inferInstanceAs (Decidable (e.metadata.map Prod.fst).Nodup)

/-- The entry with its metadata held in another order. -/
def reordered (e : Entry) (order : List (String × String)) : Entry := { e with metadata := order }

theorem sorted_sortedMetadata (e : Entry) : Sorted e.sortedMetadata := by
  have empty : Sorted ([] : List (String × String)) := List.Pairwise.nil
  exact empty.insertAll e.metadata

theorem sortedMetadata_perm (distinct : e.DistinctKeys) : e.sortedMetadata.Perm e.metadata :=
  Entries.insertAll_nil_perm distinct

theorem sortedMetadata_reordered (distinct : e.DistinctKeys) (perm : order.Perm e.metadata) :
    (e.reordered order).sortedMetadata = e.sortedMetadata := by
  have distinct' : (e.reordered order).DistinctKeys := (perm.map Prod.fst).nodup_iff.mpr distinct
  have same : (e.reordered order).sortedMetadata.Perm e.sortedMetadata :=
    (sortedMetadata_perm distinct').trans (perm.trans (sortedMetadata_perm distinct).symm)
  exact (sorted_sortedMetadata _).eq_of_perm (sorted_sortedMetadata e) same

end Entry

namespace Format

variable {f : Format} {e : Entry} {order : List (String × String)}

theorem showsMetadata_reordered (perm : order.Perm e.metadata) :
    f.showsMetadata (e.reordered order) = f.showsMetadata e := by
  rw [showsMetadata, showsMetadata, Entry.reordered, perm.isEmpty_eq]

theorem fields_reordered (distinct : e.DistinctKeys) (perm : order.Perm e.metadata) :
    f.fields (e.reordered order) = f.fields e := by
  rw [fields, fields, showsMetadata_reordered perm, e.sortedMetadata_reordered distinct perm]
  rfl

theorem members_reordered (distinct : e.DistinctKeys) (perm : order.Perm e.metadata) :
    f.members (e.reordered order) = f.members e := by
  rw [members, members, showsMetadata_reordered perm, e.sortedMetadata_reordered distinct perm]
  rfl

theorem render_reordered (distinct : e.DistinctKeys) (perm : order.Perm e.metadata) :
    f.render (e.reordered order) = f.render e := by
  rw [render, render, text, text, jsonText, jsonText, fields_reordered distinct perm,
    members_reordered distinct perm]

theorem text_of_shown (shown : f.showsMetadata e = true) :
    f.text e = f.text (e.reordered []) ++ f.separator ++ metadataText e.sortedMetadata := by
  -- an entry without metadata has one field less, the last one
  have bare : f.showsMetadata (e.reordered []) = false := by simp [showsMetadata, Entry.reordered]
  have last : f.fields e = f.fields (e.reordered []) ++ [metadataText e.sortedMetadata] := by
    rw [fields, fields, shown, bare, if_pos rfl, if_neg Bool.false_ne_true, List.append_nil]
    rfl
  have led : f.fields (e.reordered []) ≠ [] := by simp [fields]
  rw [text, last, String.intercalate_append_of_ne_nil led (List.cons_ne_nil _ _),
    String.intercalate_singleton, text]

/-- An entry is written the same way in whatever order it holds its metadata. Where a line of fields
shows metadata, it is the line without it and then, in brackets, each key with its value once, by
increasing bytes of the key. -/
theorem render_canonical (f : Format) (distinct : e.DistinctKeys) (perm : order.Perm e.metadata) :
    f.render (e.reordered order) = f.render e ∧
    (f.json = false → f.showMetadata = true → e.metadata ≠ [] →
      ∃ pairs : List (String × String), pairs.Perm e.metadata ∧
        pairs.Pairwise (fun a b => Text.bytes a.1 < Text.bytes b.1) ∧
        f.render e = f.render (e.reordered []) ++ f.separator ++
          ("[" ++ ",".intercalate (pairs.map fun pair => pair.1 ++ "=" ++ pair.2) ++ "]")) := by
  refine ⟨render_reordered distinct perm, ?_⟩
  intro line shows nonempty
  refine ⟨e.sortedMetadata, Entry.sortedMetadata_perm distinct, ?_, ?_⟩
  · exact e.sorted_sortedMetadata.imp fun less => Text.lt_iff_bytes_lt.mp less
  · have written (e : Entry) : f.render e = f.text e := if_neg (by simp [line])
    have shown : f.showsMetadata e = true := by
      simp [showsMetadata, shows, nonempty]
    rw [written, written, text_of_shown shown, metadataText]

/-- A key that another one starts with, and one that is greater than both by its first byte. -/
theorem render_canonical_unordered :
    let f : Format := { timePattern := "T" }
    let object : Format := { timePattern := "T", json := true }
    let e : Entry :=
      { level := .info, logger := "app", message := "m",
        metadata := [("é", "1"), ("ab", "2,"), ("a", "]"), ("Z", "")] }
    let order := [("a", "]"), ("é", "1"), ("Z", ""), ("ab", "2,")]
    e.DistinctKeys ∧ order.Perm e.metadata ∧ f.json = false ∧ f.showMetadata = true ∧
      e.metadata ≠ [] ∧ f.render (e.reordered order) = f.render e ∧
      object.render (e.reordered order) = object.render e ∧
      f.render e = "T | INFO | app | m | [Z=,a=],ab=2,,é=1]" ∧
      ∃ pairs : List (String × String), pairs.Perm e.metadata ∧
        pairs.Pairwise (fun a b => Text.bytes a.1 < Text.bytes b.1) ∧
        f.render e = f.render (e.reordered []) ++ f.separator ++
          ("[" ++ ",".intercalate (pairs.map fun pair => pair.1 ++ "=" ++ pair.2) ++ "]") := by
  intro f object e order
  have distinct : e.DistinctKeys := by decide
  have perm : order.Perm e.metadata := by decide
  have nonempty : e.metadata ≠ [] := List.cons_ne_nil _ _
  obtain ⟨same, listed⟩ := render_canonical f distinct perm
  obtain ⟨same', -⟩ := render_canonical object distinct perm
  exact ⟨distinct, perm, rfl, rfl, nonempty, same, same', by decide +kernel,
    listed rfl rfl nonempty⟩

end Format

end WireRecords.Log
