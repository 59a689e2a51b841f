import Mathlib.Data.List.TakeDrop
import WireRecords.Proofs.LastWriter

/-!
# What a command line sets

An argument with two dashes in front sets a key: to true, or to the text behind its first equals
sign. Of several arguments for one key the last one counts, and a key without any keeps its value.
All other arguments are positional.
-/

namespace WireRecords.Settings

/-- An argument that sets a key: a flag, or a key with a text behind the first equals sign. -/
inductive Gives (argument key : String) : Setting → Prop where
  | flag (plain : '=' ∉ key.toList) (whole : argument = "--" ++ key) :
      Gives argument key (.bool true)
  | assignment (plain : '=' ∉ key.toList) (text : String)
      (whole : argument = "--" ++ key ++ "=" ++ text) : Gives argument key (.text text)

/-- The last argument behind the program's name that sets the key sets it to the value. -/
def Given (arguments : List String) (key : String) (value : Setting) : Prop :=
  LastWhere (fun argument => Gives argument key value)
    (fun argument => ∀ other, ¬ Gives argument key other) (arguments.drop 1)

def Ungiven (arguments : List String) (key : String) : Prop :=
  ∀ argument ∈ arguments.drop 1, ∀ value, ¬ Gives argument key value

theorem span_ne {key : List Char} (plain : '=' ∉ key) (tail : List Char)
    (ends : ∀ c ∈ tail.head?, c = '=') :
    (key ++ tail).span (fun c => c ≠ '=') = (key, tail) := by
  have kept : ∀ c ∈ key, decide (c ≠ '=') = true := by
    intro c member
    have other : c ≠ '=' := fun same => plain (same ▸ member)
    exact decide_eq_true other
  rw [List.span_eq_takeWhile_dropWhile, List.takeWhile_append_of_pos kept,
    List.dropWhile_append_of_pos kept]
  cases tail with
  | nil => simp
  | cons c cs =>
    obtain rfl := ends c rfl
    simp

theorem ofArgument?_flag {key : String} (plain : '=' ∉ key.toList) :
    ofArgument? ("--" ++ key) = some (key, .bool true) := by
  have spanned := span_ne plain [] (by simp)
  rw [List.append_nil] at spanned
  have dashes : ("--" ++ key).toList = '-' :: '-' :: key.toList := by simp
  simp only [ofArgument?, dashes, spanned, String.ofList_toList]

theorem ofArgument?_assignment {key : String} (plain : '=' ∉ key.toList) (text : String) :
    ofArgument? ("--" ++ key ++ "=" ++ text) = some (key, .text text) := by
  have spanned := span_ne plain ('=' :: text.toList) (by simp)
  have dashes : ("--" ++ key ++ "=" ++ text).toList =
      '-' :: '-' :: (key.toList ++ '=' :: text.toList) := by simp
  simp only [ofArgument?, dashes, spanned, String.ofList_toList]

theorem gives_unique {argument key : String} {value : Setting} (h : Gives argument key value) :
    ofArgument? argument = some (key, value) := by
  rcases h with ⟨plain, rfl⟩ | ⟨plain, text, rfl⟩
  · exact ofArgument?_flag plain
  · exact ofArgument?_assignment plain text

theorem exists_gives {argument : String} (dashes : "--".toList.isPrefixOf argument.toList = true) :
    ∃ key value, Gives argument key value := by
  obtain ⟨cs, start⟩ := List.isPrefixOf_iff_prefix.mp dashes
  by_cases sign : '=' ∈ cs
  · obtain ⟨key, text, rfl, plain⟩ := List.eq_append_cons_of_mem sign
    refine ⟨String.ofList key, _, .assignment ?_ (String.ofList text) ?_⟩
    · rwa [String.toList_ofList]
    · rw [← String.toList_inj, ← start]
      simp
  · refine ⟨String.ofList cs, _, .flag ?_ ?_⟩
    · rwa [String.toList_ofList]
    · rw [← String.toList_inj, ← start]
      simp

theorem ofArgument?_eq_some_iff {argument key : String} {value : Setting} :
    ofArgument? argument = some (key, value) ↔ Gives argument key value := by
  constructor
  · intro found
    have dashes : "--".toList.isPrefixOf argument.toList = true := by
      by_contra other
      rw [ofArgument?_eq_none_iff.mpr (Bool.of_not_eq_true other)] at found
      cases found
    obtain ⟨key', value', gives⟩ := exists_gives dashes
    have same := found.symm.trans (gives_unique gives)
    cases same
    exact gives
  · exact gives_unique

theorem find?_ofArgument?_eq_some_iff {argument key : String} {value : Setting} :
    Entries.find? (ofArgument? argument).toList key = some value ↔ Gives argument key value := by
  rw [← ofArgument?_eq_some_iff]
  constructor
  · intro found
    exact Option.mem_toList.mp (Entries.mem_of_find? found)
  · intro found
    rw [found, Option.toList_some, Entries.find?, if_pos rfl]

theorem find?_ofArgument?_eq_none_iff {argument key : String} :
    Entries.find? (ofArgument? argument).toList key = none ↔
      ∀ value, ¬ Gives argument key value := by
  simp only [← find?_ofArgument?_eq_some_iff, Option.eq_none_iff_forall_ne_some, Ne]

theorem find?_arguments_concat (given : List String) (argument key : String) :
    Entries.find? ((given ++ [argument]).filterMap ofArgument?).reverse key =
      (Entries.find? (ofArgument? argument).toList key).or
        (Entries.find? (given.filterMap ofArgument?).reverse key) := by
  rw [List.filterMap_append, List.reverse_append, Entries.find?_append]
  cases found : ofArgument? argument <;> simp [found]

theorem find?_arguments_eq_some_iff {given : List String} {key : String} {value : Setting} :
    Entries.find? (given.filterMap ofArgument?).reverse key = some value ↔
      LastWhere (fun argument => Gives argument key value)
        (fun argument => ∀ other, ¬ Gives argument key other) given := by
  induction given using List.reverseRecOn with
  | nil => simp [Entries.find?, LastWhere]
  | append_singleton given argument ih =>
    rw [find?_arguments_concat, Option.or_eq_some_iff, lastWhere_concat_iff, ih,
      find?_ofArgument?_eq_some_iff, find?_ofArgument?_eq_none_iff]

theorem find?_arguments_eq_none_iff {given : List String} {key : String} :
    Entries.find? (given.filterMap ofArgument?).reverse key = none ↔
      ∀ argument ∈ given, ∀ value, ¬ Gives argument key value := by
  induction given using List.reverseRecOn with
  | nil => simp [Entries.find?]
  | append_singleton given argument ih =>
    rw [find?_arguments_concat, Option.or_eq_none_iff, ih, find?_ofArgument?_eq_none_iff]
    simp only [List.mem_append, List.mem_singleton, or_imp, forall_and, forall_eq]
    exact and_comm

theorem get?_loadArguments (s : Settings) (arguments : List String) (key : String) :
    (s.loadArguments arguments).1.get? key =
      (Entries.find? ((arguments.drop 1).filterMap ofArgument?).reverse key).or (s.get? key) :=
  s.get?_setAll _ key

theorem positional_loadArguments (s : Settings) (arguments : List String) :
    (s.loadArguments arguments).1.positional = s.positional ++
      (arguments.drop 1).filter fun argument => !"--".toList.isPrefixOf argument.toList := by
  simp only [loadArguments, isNone_ofArgument?]

theorem count_loadArguments (s : Settings) (arguments : List String) :
    (s.loadArguments arguments).2 =
      (arguments.drop 1).countP fun argument => "--".toList.isPrefixOf argument.toList := by
  rw [loadArguments, List.length_filterMap_eq_countP]
  apply List.countP_congr
  intro argument _
  rw [← Option.not_isNone, isNone_ofArgument?, Bool.not_not]

theorem ungiven_or_given (arguments : List String) (key : String) :
    Ungiven arguments key ∨ ∃ value, Given arguments key value := by
  simp only [Ungiven, Given, ← find?_arguments_eq_none_iff, ← find?_arguments_eq_some_iff]
  cases Entries.find? ((arguments.drop 1).filterMap ofArgument?).reverse key with
  | none => exact .inl rfl
  | some value => exact .inr ⟨value, rfl⟩

theorem get?_loadArguments_of_given (s : Settings) {arguments : List String} {key : String}
    {value : Setting} (given : Given arguments key value) :
    (s.loadArguments arguments).1.get? key = some value := by
  rw [get?_loadArguments, find?_arguments_eq_some_iff.mpr given, Option.some_or]

theorem get?_loadArguments_of_ungiven (s : Settings) {arguments : List String} {key : String}
    (ungiven : Ungiven arguments key) :
    (s.loadArguments arguments).1.get? key = s.get? key := by
  rw [get?_loadArguments, find?_arguments_eq_none_iff.mpr ungiven, Option.none_or]

/-- Loading a command line counts the arguments behind the program's name that start with two dashes
and keeps the others, in order. The last argument for a key decides about it, a flag by true and an
assignment by everything behind its first equals sign, whatever characters these are; a key without
any argument keeps what it had. -/
theorem loadArguments_exact (s : Settings) (arguments : List String) :
    let loaded := (s.loadArguments arguments).1
    (s.loadArguments arguments).2 =
      (arguments.drop 1).countP (fun argument => "--".toList.isPrefixOf argument.toList) ∧
    loaded.positional = s.positional ++
      (arguments.drop 1).filter (fun argument => !"--".toList.isPrefixOf argument.toList) ∧
    (∀ key, Ungiven arguments key ∧ loaded.get? key = s.get? key ∨
      ∃ value, Given arguments key value ∧ loaded.get? key = some value) ∧
    ∀ front key text back fallback,
      arguments = front ++ ("--" ++ key ++ "=" ++ text) :: back → front ≠ [] →
      '=' ∉ key.toList → (∀ argument ∈ back, ∀ value, ¬ Gives argument key value) →
        loaded.getString key fallback = text := by
  intro loaded
  refine ⟨s.count_loadArguments arguments, s.positional_loadArguments arguments, ?_, ?_⟩
  · intro key
    rcases ungiven_or_given arguments key with ungiven | ⟨value, given⟩
    · exact .inl ⟨ungiven, s.get?_loadArguments_of_ungiven ungiven⟩
    · exact .inr ⟨value, given, s.get?_loadArguments_of_given given⟩
  · intro front key text back fallback split named plain spared
    have given : Given arguments key (.text text) := by
      refine ⟨front.drop 1, _, back, ?_, .assignment plain text rfl, spared⟩
      rw [split, List.drop_append_of_le_length (List.length_pos_iff.mpr named)]
    exact getString_of_get? (s.get?_loadArguments_of_given given) fallback

/-- A flag and an assignment for one key, the empty key, and a text that starts like an argument and
holds equals signs. -/
theorem loadArguments_exact_repeated :
    let s := empty.setAll [("kept", .int 7)]
    let arguments := ["--program=1", "in", "--n", "--=", "-x", "--", "--n=--a==007", "--kept.not"]
    let loaded := (s.loadArguments arguments).1
    (s.loadArguments arguments).2 = 5 ∧ loaded.positional = ["in", "-x"] ∧
      loaded.getString "n" "" = "--a==007" := by
  intro s arguments loaded
  obtain ⟨count, positional, -, last⟩ := loadArguments_exact s arguments
  refine ⟨count, positional, last (arguments.take 6) "n" "--a==007" (arguments.drop 7) ""
    rfl (by decide) (by decide) ?_⟩
  have other : Entries.find? (ofArgument? "--kept.not").toList "n" = none := by decide +kernel
  exact List.forall_mem_singleton.mpr (find?_ofArgument?_eq_none_iff.mp other)

end WireRecords.Settings
