/-!
# Maps with text keys

Entries are kept in strictly increasing key order, so a map has one representation and lists its
keys in order. The order of texts is the order of their UTF-8 bytes. The operations are stated on
plain lists of entries (`Entries`), and `KeyMap` adds the order as an invariant.
-/

namespace WireRecords

namespace Entries

variable {α : Type}

def Sorted (m : List (String × α)) : Prop := m.Pairwise fun a b => a.1 < b.1

def find? (m : List (String × α)) (key : String) : Option α :=
  match m with
  | [] => none
  | (k, v) :: rest => if k = key then some v else find? rest key

def insert (m : List (String × α)) (key : String) (value : α) : List (String × α) :=
  match m with
  | [] => [(key, value)]
  | (k, v) :: rest =>
    if key < k then (key, value) :: (k, v) :: rest
    else if key = k then (key, value) :: rest
    else (k, v) :: insert rest key value

def erase (m : List (String × α)) (key : String) : List (String × α) :=
  match m with
  | [] => []
  | (k, v) :: rest => if k = key then erase rest key else (k, v) :: erase rest key

theorem lt_of_not_lt_of_ne {a b : String} (h : ¬a < b) (hne : a ≠ b) : b < a := by
  apply Decidable.byContradiction
  intro h'
  exact hne (String.le_antisymm (String.not_lt.1 h') (String.not_lt.1 h))

@[simp] theorem find?_insert (m : List (String × α)) (key key' : String) (value : α) :
    find? (insert m key value) key' = if key = key' then some value else find? m key' := by
  induction m with
  | nil => simp [insert, find?]
  | cons e rest ih =>
    obtain ⟨k, v⟩ := e
    simp only [insert]
    split
    · simp [find?]
    · split
      · next h => subst h; by_cases hk : key = key' <;> simp [find?, hk]
      · next h =>
        by_cases hk : k = key'
        · subst hk; simp [find?, h]
        · simp [find?, hk, ih]

@[simp] theorem find?_erase (m : List (String × α)) (key key' : String) :
    find? (erase m key) key' = if key = key' then none else find? m key' := by
  induction m with
  | nil => simp [erase, find?]
  | cons e rest ih =>
    obtain ⟨k, v⟩ := e
    by_cases hk : k = key
    · subst hk
      by_cases hk' : k = key' <;> simp_all [erase, find?]
    · by_cases hk' : k = key'
      · subst hk'
        have hne : ¬key = k := fun h => hk h.symm
        simp [erase, find?, hk, hne]
      · simp [erase, find?, hk, hk', ih]

theorem erase_sublist (m : List (String × α)) (key : String) : (erase m key).Sublist m := by
  induction m with
  | nil => exact List.Sublist.slnil
  | cons e rest ih =>
    simp only [erase]
    split
    · exact ih.cons _
    · exact ih.cons_cons _

theorem mem_insert {m : List (String × α)} {key : String} {value : α} {e : String × α}
    (h : e ∈ insert m key value) : e = (key, value) ∨ e ∈ m := by
  induction m with
  | nil => simpa [insert] using h
  | cons e' rest ih =>
    obtain ⟨k, v⟩ := e'
    simp only [insert] at h
    split at h
    · simpa using h
    · split at h
      · rcases List.mem_cons.1 h with h | h
        · exact .inl h
        · exact .inr (List.mem_cons_of_mem _ h)
      · rcases List.mem_cons.1 h with h | h
        · exact .inr (h ▸ List.mem_cons_self)
        · exact (ih h).imp id (List.mem_cons_of_mem _)

theorem Sorted.insert {m : List (String × α)} (h : Sorted m) (key : String) (value : α) :
    Sorted (insert m key value) := by
  induction m with
  | nil => simp [Entries.insert, Sorted]
  | cons e rest ih =>
    obtain ⟨k, v⟩ := e
    obtain ⟨hk, hrest⟩ := List.pairwise_cons.1 h
    simp only [Entries.insert]
    split
    · next hlt =>
      refine List.pairwise_cons.2 ⟨?_, h⟩
      intro a ha
      rcases List.mem_cons.1 ha with rfl | ha
      · exact hlt
      · exact String.lt_trans hlt (hk a ha)
    · next hlt =>
      split
      · next heq => subst heq; exact List.pairwise_cons.2 ⟨hk, hrest⟩
      · next hne =>
        refine List.pairwise_cons.2 ⟨?_, ih hrest⟩
        intro a ha
        rcases mem_insert ha with rfl | ha
        · exact lt_of_not_lt_of_ne hlt hne
        · exact hk a ha

theorem Sorted.erase {m : List (String × α)} (h : Sorted m) (key : String) :
    Sorted (erase m key) :=
  List.Pairwise.sublist (erase_sublist m key) h

end Entries

/-- A finite map from texts. -/
structure KeyMap (α : Type) where
  entries : List (String × α)
  sorted : Entries.Sorted entries

namespace KeyMap

variable {α : Type}

def empty : KeyMap α := ⟨[], List.Pairwise.nil⟩

instance : Inhabited (KeyMap α) := ⟨empty⟩

def get? (m : KeyMap α) (key : String) : Option α := Entries.find? m.entries key

def contains (m : KeyMap α) (key : String) : Bool := (m.get? key).isSome

def insert (m : KeyMap α) (key : String) (value : α) : KeyMap α :=
  ⟨Entries.insert m.entries key value, m.sorted.insert key value⟩

def erase (m : KeyMap α) (key : String) : KeyMap α :=
  ⟨Entries.erase m.entries key, m.sorted.erase key⟩

def keys (m : KeyMap α) : List String := m.entries.map (·.1)

def insertAll (m : KeyMap α) (es : List (String × α)) : KeyMap α :=
  es.foldl (fun m e => m.insert e.1 e.2) m

def ofList (es : List (String × α)) : KeyMap α := empty.insertAll es

@[simp] theorem get?_empty (key : String) : (empty : KeyMap α).get? key = none := rfl

@[simp] theorem get?_insert (m : KeyMap α) (key key' : String) (value : α) :
    (m.insert key value).get? key' = if key = key' then some value else m.get? key' :=
  Entries.find?_insert m.entries key key' value

@[simp] theorem get?_erase (m : KeyMap α) (key key' : String) :
    (m.erase key).get? key' = if key = key' then none else m.get? key' :=
  Entries.find?_erase m.entries key key'

end KeyMap

end WireRecords
