import WireRecords.Proofs.Description
import Mathlib.Data.List.MinMax
import Mathlib.Data.List.Perm.Basic

/-!
# The extent of layouts put together by hand

Fields may be added to a layout one by one, anywhere and in any order. Its size is the greatest of
their ends, and it is all that a buffer is compared with before a field is read. Ends are 64-bit
words and may wrap: such a field adds almost nothing to the size, and is then read from outside the
buffer. As long as no end wraps the size is where the last field ends, and a field is read from
inside the buffer or not at all.
-/

namespace WireRecords

theorem FieldDefinition.toNat_stop (d : FieldDefinition) :
    d.stop.toNat = d.window.stop % 2 ^ 64 := by
  rw [stop, UInt64.toNat_add]
  rfl

namespace Layout

def built (name : String) (calls : List (FieldDefinition × FieldList)) : Layout :=
  calls.foldl (fun l call => l.add call.1 call.2) (named name)

/-- The greatest end of the fields, as a natural number. -/
def reach (calls : List (FieldDefinition × FieldList)) : Nat :=
  (calls.map fun call => call.1.window.stop).foldr max 0

/-- The greatest end of the fields after each has wrapped. -/
def wrappedReach (calls : List (FieldDefinition × FieldList)) : Nat :=
  (calls.map fun call => call.1.window.stop % 2 ^ 64).foldr max 0

variable {calls : List (FieldDefinition × FieldList)}

theorem toNat_size_add (l : Layout) (d : FieldDefinition) (children : FieldList) :
    (l.add d children).size.toNat = max l.size.toNat (d.window.stop % 2 ^ 64) := by
  rw [size_add, UInt64.toNat_max, d.toNat_stop]

theorem toNat_size_foldl (calls : List (FieldDefinition × FieldList)) (l : Layout) :
    (calls.foldl (fun l call => l.add call.1 call.2) l).size.toNat =
      max l.size.toNat (wrappedReach calls) := by
  induction calls generalizing l with
  | nil => exact (Nat.max_zero l.size.toNat).symm
  | cons call calls ih =>
    rw [List.foldl_cons, ih, toNat_size_add, max_assoc]
    rfl

theorem toNat_size_built (name : String) (calls : List (FieldDefinition × FieldList)) :
    (built name calls).size.toNat = wrappedReach calls := by
  rw [built, toNat_size_foldl]
  exact Nat.zero_max (wrappedReach calls)

theorem stop_le_reach {d : FieldDefinition} {children : FieldList} (h : (d, children) ∈ calls) :
    d.window.stop ≤ reach calls :=
  List.le_max_of_le (List.mem_map_of_mem (f := fun call => call.1.window.stop) h) (le_refl _)

theorem stop_le_wrappedReach {d : FieldDefinition} {children : FieldList}
    (h : (d, children) ∈ calls) : d.window.stop % 2 ^ 64 ≤ wrappedReach calls :=
  List.le_max_of_le (List.mem_map_of_mem (f := fun call => call.1.window.stop % 2 ^ 64) h)
    (le_refl _)

theorem wrappedReach_perm {calls' : List (FieldDefinition × FieldList)} (h : calls'.Perm calls) :
    wrappedReach calls' = wrappedReach calls := (h.map _).foldr_eq 0

theorem size_eq_reach_iff (name : String) (calls : List (FieldDefinition × FieldList)) :
    (built name calls).size.toNat = reach calls ↔ ∀ call ∈ calls, call.1.window.stop < 2 ^ 64 := by
  constructor
  · intro same call member
    -- the size is a 64-bit word, however far the fields reach
    calc call.1.window.stop
      _ ≤ reach calls := stop_le_reach member
      _ = (built name calls).size.toNat := same.symm
      _ < 2 ^ 64 := (built name calls).size.toNat_lt
  · intro fits
    rw [toNat_size_built, wrappedReach, reach]
    congr 1
    apply List.map_congr_left
    intro call member
    exact Nat.mod_eq_of_lt (fits call member)

theorem exists_value_iff {l : Layout} {path : String} {d : FieldDefinition} {children : FieldList}
    (found : l.find? path = some (d, children)) (scalar : d.isRecord = false) (data : Bytes) :
    (∃ word, l.value path data = .ok word) ↔ l.size.toNat ≤ data.length := by
  rw [value_of_find? found scalar]
  split
  · simp only [reduceCtorEq, exists_false, false_iff]
    omega
  · simp only [Except.ok.injEq, exists_eq', true_iff]
    omega

/-- A field is read from inside the buffer whenever it is read at all, just if its end does not
wrap. -/
theorem reads_inside_iff {name path : String} {d : FieldDefinition} {children : FieldList}
    (member : (d, children) ∈ calls) (found : (built name calls).find? path = some (d, children))
    (scalar : d.isRecord = false) :
    (∀ data word, (built name calls).value path data = .ok word → d.window.stop ≤ data.length) ↔
      d.window.stop < 2 ^ 64 := by
  have accepted := exists_value_iff found scalar
  constructor
  · intro inside
    -- a buffer of just the layout's size is accepted, and no size is as great as the end of a
    -- field that wraps
    have full : (List.replicate (built name calls).size.toNat (0 : UInt8)).length =
        (built name calls).size.toNat := List.length_replicate
    obtain ⟨word, value⟩ := (accepted _).mpr full.ge
    calc d.window.stop
      _ ≤ (List.replicate (built name calls).size.toNat (0 : UInt8)).length := inside _ word value
      _ = (built name calls).size.toNat := full
      _ < 2 ^ 64 := (built name calls).size.toNat_lt
  · intro fits data word value
    calc d.window.stop
      _ = d.window.stop % 2 ^ 64 := (Nat.mod_eq_of_lt fits).symm
      _ ≤ wrappedReach calls := stop_le_wrappedReach member
      _ = (built name calls).size.toNat := (toNat_size_built name calls).symm
      _ ≤ data.length := (accepted data).mp ⟨word, value⟩

/-- The size does not depend on the order in which the fields were added. It is the greatest of
their ends, each taken modulo the number of 64-bit words, and thus where the last field ends just if
no end wraps. A buffer is accepted just if it has that size, so a field is only ever read from
inside the buffer if its own end does not wrap, and only then. -/
theorem size_built (name : String) (calls : List (FieldDefinition × FieldList)) :
    (∀ calls', calls'.Perm calls → (built name calls').size = (built name calls).size) ∧
    (built name calls).size.toNat = wrappedReach calls ∧
    ((built name calls).size.toNat = reach calls ↔ ∀ call ∈ calls, call.1.window.stop < 2 ^ 64) ∧
    ∀ d children, (d, children) ∈ calls → d.isRecord = false →
      ∀ path, (built name calls).find? path = some (d, children) →
        (∀ data, (∃ word, (built name calls).value path data = .ok word) ↔
          (built name calls).size.toNat ≤ data.length) ∧
        ((∀ data word, (built name calls).value path data = .ok word →
            d.window.stop ≤ data.length) ↔ d.window.stop < 2 ^ 64) := by
  refine ⟨?_, toNat_size_built name calls, size_eq_reach_iff name calls, ?_⟩
  · intro calls' perm
    rw [← UInt64.toNat_inj, toNat_size_built, toNat_size_built, wrappedReach_perm perm]
  · intro d children member scalar path found
    exact ⟨exists_value_iff found scalar, reads_inside_iff member found scalar⟩

/-- Two fields with a gap in front of the second one. -/
theorem size_built_gap :
    let a : FieldDefinition := ⟨"a", 0, 2, .big, .uint⟩
    let b : FieldDefinition := ⟨"b", 6, 4, .little, .int⟩
    let l := built "manual" [(b, .nil), (a, .nil)]
    l.size.toNat = 10 ∧ (built "manual" [(a, .nil), (b, .nil)]).size = l.size ∧
      ∀ data word, l.value "b" data = .ok word → 10 ≤ data.length := by
  intro a b l
  obtain ⟨order, -, exact, reads⟩ := size_built "manual" [(b, .nil), (a, .nil)]
  have fits : ∀ call ∈ [(b, FieldList.nil), (a, FieldList.nil)], call.1.window.stop < 2 ^ 64 := by
    decide
  refine ⟨exact.mpr fits, order _ (List.Perm.swap _ _ _), ?_⟩
  exact (reads b .nil List.mem_cons_self rfl "b" (by decide)).2.mpr (by decide)

/-- The second field starts close to the last address and ends, in 64-bit words, at 1. The layout's
size stays 2, and two bytes are enough for the field to be read. -/
theorem size_of_wrapping_field :
    let a : FieldDefinition := ⟨"a", 0, 2, .big, .uint⟩
    let f : FieldDefinition := ⟨"f", 18446744073709547520, 4097, .big, .uint⟩
    let calls := [(a, FieldList.nil), (f, FieldList.nil)]
    let l := built "wrap" calls
    l.size.toNat = 2 ∧ reach calls = 2 ^ 64 + 1 ∧ l.find? "f" = some (f, .nil) ∧
      (∃ word, l.value "f" [1, 2] = .ok word) ∧ ¬ f.window.stop ≤ [1, 2].length := by
  intro a f calls l
  exact ⟨by decide, by decide, by decide, ⟨0, by decide⟩, by decide⟩

end Layout

end WireRecords
