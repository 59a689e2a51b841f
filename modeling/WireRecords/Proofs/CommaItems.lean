import Mathlib.Data.List.Basic
import WireRecords.Proofs.DottedNames
import WireRecords.Settings

/-!
# Lists as texts

The items of a text are what stands between its commas. A comma at the end closes the last item
without opening another one, so an empty item is lost there, and there only.
-/

namespace WireRecords

theorem Text.split_ne_nil (separator : Char) (s : String) : split separator s ≠ [] := by
  rw [split, Ne, List.map_eq_nil_iff]
  exact pieces_ne_nil separator s.toList

theorem Text.split_append (separator : Char) (s t : String) :
    split separator (s ++ String.singleton separator ++ t) =
      split separator s ++ split separator t := by
  have characters : (s ++ String.singleton separator ++ t).toList =
      s.toList ++ separator :: t.toList := by simp
  rw [split, characters, pieces_eq_splitOn, List.splitOn_append_cons_self, List.map_append,
    ← pieces_eq_splitOn, ← pieces_eq_splitOn, split, split]

namespace Setting

theorem commaItems_empty : commaItems "" = [] := by decide

theorem commaItems_of_closed (front : String) :
    commaItems (front ++ ",") = Text.split ',' front := by
  have pieces : Text.split ',' (front ++ ",") = Text.split ',' front ++ [""] := by
    have both := Text.split_append ',' front ""
    rwa [String.append_empty] at both
  rw [commaItems, pieces, List.getLast?_concat, if_pos rfl, List.dropLast_concat]

theorem commaItems_of_open {s : String} (filled : s ≠ "") (opened : ∀ front, s ≠ front ++ ",") :
    commaItems s = Text.split ',' s := by
  rw [commaItems, if_neg]
  intro last
  obtain ⟨items, split⟩ := List.getLast?_eq_some_iff.mp last
  have joined := Text.intercalate_split ',' s
  rw [split] at joined
  cases items with
  | nil => exact filled joined.symm
  | cons item items =>
    apply opened (",".intercalate (item :: items))
    rw [← joined, String.intercalate_append_of_ne_nil (by simp) (by simp),
      String.intercalate_singleton, String.append_empty]
    rfl

theorem commaItems_cases (s : String) :
    s = "" ∧ commaItems s = [] ∨
    (∃ front, s = front ++ "," ∧ commaItems s = Text.split ',' front) ∨
    s ≠ "" ∧ (∀ front, s ≠ front ++ ",") ∧ commaItems s = Text.split ',' s := by
  by_cases filled : s = ""
  · exact .inl ⟨filled, filled ▸ commaItems_empty⟩
  by_cases closed : ∃ front, s = front ++ ","
  · obtain ⟨front, rfl⟩ := closed
    exact .inr (.inl ⟨front, rfl, commaItems_of_closed front⟩)
  · have opened := not_exists.mp closed
    exact .inr (.inr ⟨filled, opened, commaItems_of_open filled opened⟩)

theorem free_of_mem_commaItems {s item : String} (member : item ∈ commaItems s) :
    ',' ∉ item.toList := by
  rcases commaItems_cases s with ⟨-, items⟩ | ⟨front, -, items⟩ | ⟨-, -, items⟩
  all_goals rw [items] at member
  · cases member
  · exact Text.free_of_mem_split member
  · exact Text.free_of_mem_split member

theorem commaItems_eq_nil_iff {s : String} : commaItems s = [] ↔ s = "" := by
  rcases commaItems_cases s with ⟨rfl, items⟩ | ⟨front, rfl, items⟩ | ⟨filled, -, items⟩
  · simp [items]
  · simp [items, Text.split_ne_nil]
  · simp [items, Text.split_ne_nil, filled]

/-- The join of the items is the text again, but for a comma at its end. -/
theorem intercalate_commaItems (s : String) :
    s = ",".intercalate (commaItems s) ++ "," ∨
      s = ",".intercalate (commaItems s) ∧ ∀ front, s ≠ front ++ "," := by
  rcases commaItems_cases s with ⟨rfl, items⟩ | ⟨front, rfl, items⟩ | ⟨-, opened, items⟩
  · refine .inr ⟨by rw [items, String.intercalate_nil], ?_⟩
    intro front same
    exact absurd (String.append_eq_empty_iff.mp same.symm).2 (by decide)
  · exact .inl (by rw [items]; exact congrArg (· ++ ",") (Text.intercalate_split ',' front).symm)
  · exact .inr ⟨by rw [items]; exact (Text.intercalate_split ',' s).symm, opened⟩

theorem commaItems_intercalate {texts : List String} (free : ∀ t ∈ texts, ',' ∉ t.toList)
    (some_text : texts ≠ []) : commaItems (",".intercalate texts) =
      if texts.getLast? = some "" then texts.dropLast else texts := by
  have pieces : Text.split ',' (",".intercalate texts) = texts :=
    Text.split_intercalate free some_text
  rw [commaItems, pieces]

theorem commaItems_intercalate_eq_iff {texts : List String} (free : ∀ t ∈ texts, ',' ∉ t.toList) :
    commaItems (",".intercalate texts) = texts ↔
      texts = [] ∨ ∃ last, texts.getLast? = some last ∧ last ≠ "" := by
  rcases List.eq_nil_or_concat texts with rfl | ⟨front, last, rfl⟩
  · simp [commaItems_empty]
  · rw [List.concat_eq_append] at free ⊢
    rw [commaItems_intercalate free (by simp), List.getLast?_concat, List.dropLast_concat]
    by_cases empty : last = ""
    · simp [empty]
    · simp [empty]

end Setting

namespace Settings

/-- A text is read as a list of items without commas, whose join is the text again, less one comma
at its end if there is one; only the empty text has no items. Items without commas that are joined
and stored come back exactly if there are none or the last one is not empty. -/
theorem getList_comma_items (s : Settings) (key : String) (fallback : List String) :
    (∀ text, s.get? key = some (.text text) →
      let items := s.getList key fallback
      (∀ item ∈ items, ',' ∉ item.toList) ∧
      (text = ",".intercalate items ++ "," ∨
        text = ",".intercalate items ∧ ∀ front, text ≠ front ++ ",") ∧
      (items = [] ↔ text = "")) ∧
    ∀ texts, (∀ t ∈ texts, ',' ∉ t.toList) → s.get? key = some (.text (",".intercalate texts)) →
      (s.getList key fallback = texts ↔
        texts = [] ∨ ∃ last, texts.getLast? = some last ∧ last ≠ "") := by
  have read {text : String} (stored : s.get? key = some (.text text)) :
      s.getList key fallback = Setting.commaItems text := getList_of_get? stored fallback
  constructor
  · intro text stored
    rw [read stored]
    exact ⟨fun _ => Setting.free_of_mem_commaItems, Setting.intercalate_commaItems text,
      Setting.commaItems_eq_nil_iff⟩
  · intro texts free stored
    rw [read stored]
    exact Setting.commaItems_intercalate_eq_iff free

/-- Lists from a command line, with empty items in front and inside, and one lost at the end. -/
theorem getList_comma_items_argument :
    let s := (empty.loadArguments ["program", "--a=,x,,y", "--b=x,,"]).1
    s.getList "a" [] = ["", "x", "", "y"] ∧ s.getList "b" [] ≠ ["x", "", ""] ∧
      "x,," = ",".intercalate (s.getList "b" []) ++ "," := by
  intro s
  have a : s.get? "a" = some (.text ",x,,y") := by decide +kernel
  have b : s.get? "b" = some (.text "x,,") := by decide +kernel
  obtain ⟨-, same⟩ := getList_comma_items s "a" []
  obtain ⟨joined, lost⟩ := getList_comma_items s "b" []
  refine ⟨(same ["", "x", "", "y"] (by decide) a).mpr (.inr ⟨"y", rfl, by decide⟩), ?_, ?_⟩
  · rw [Ne, lost ["x", "", ""] (by decide) b]
    decide
  · obtain ⟨-, closed | ⟨-, opened⟩, -⟩ := joined _ b
    · exact closed
    · exact absurd rfl (opened "x,")

end Settings

end WireRecords
