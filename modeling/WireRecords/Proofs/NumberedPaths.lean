import Mathlib.Data.List.Basic
import Mathlib.Data.List.TakeWhile
import Mathlib.Tactic.SplitIfs
import WireRecords.Log.RollingFile
import WireRecords.Proofs.Files

/-!
# Numbered paths

A log file that is set aside stands in the directory of the log file, under the log file's name with
a number behind it. So different numbers lead to different places, and none of them is the place of
the log file itself.
-/

namespace WireRecords

theorem Text.pieces_of_not_mem {separator : Char} {cs : List Char} (free : separator ∉ cs) :
    pieces separator cs = [cs] := by
  induction cs with
  | nil => rfl
  | cons c cs ih =>
    obtain ⟨other, free⟩ := not_or.mp (mt List.mem_cons.mpr free)
    rw [pieces, if_neg (Ne.symm other), ih free]

/-- What stands behind the last separator grows with the text, and nothing else changes. -/
theorem Text.exists_pieces_append (separator : Char) (cs : List Char) :
    ∃ front last, ∀ suffix, separator ∉ suffix →
      pieces separator (cs ++ suffix) = front ++ [last ++ suffix] := by
  -- one split has to do for every suffix, so the suffix stays inside the induction
  induction cs with
  | nil => exact ⟨[], [], fun suffix free => pieces_of_not_mem free⟩
  | cons c cs ih =>
    obtain ⟨front, last, grows⟩ := ih
    by_cases same : c = separator
    · refine ⟨[] :: front, last, fun suffix free => ?_⟩
      rw [List.cons_append, pieces, if_pos same, grows suffix free, List.cons_append]
    · cases front with
      | nil =>
        refine ⟨[], c :: last, fun suffix free => ?_⟩
        rw [List.cons_append, pieces, if_neg same, grows suffix free]
        rfl
      | cons p front =>
        refine ⟨(c :: p) :: front, last, fun suffix free => ?_⟩
        rw [List.cons_append, pieces, if_neg same, grows suffix free]
        rfl

namespace FileSystem

variable {fs : FileSystem}

theorem walk_append (place : Place) (xs ys : List String) :
    fs.walk place (xs ++ ys) = (fs.walk place xs).bind fun p => fs.walk p ys := by
  induction xs generalizing place with
  | nil => rfl
  | cons name xs ih =>
    rw [List.cons_append, walk, walk]
    split_ifs
    · exact ih place
    · exact ih place.dropLast
    · exact ih (place ++ [name])
    · rfl
    · rfl

theorem walk_single {place q : Place} {name : String} (h : fs.walk place [name] = some q) :
    q = place ∨ q = place.dropLast ∨ q = place ++ [name] := by
  simp only [walk] at h
  split_ifs at h
  · exact .inl (Option.some.inj h).symm
  · exact .inr (.inl (Option.some.inj h).symm)
  · exact .inr (.inr (Option.some.inj h).symm)

theorem walk_proper {place q : Place} {name : String} (empty : name ≠ "") (point : name ≠ ".")
    (points : name ≠ "..") (h : fs.walk place [name] = some q) : q = place ++ [name] := by
  simp only [walk, empty, point, points, or_self, if_false] at h
  split_ifs at h
  exact (Option.some.inj h).symm

def root (fs : FileSystem) (path : String) : Place :=
  if path.toList.head? = some '/' then [] else fs.current

theorem beforeNul_eq {path : String} (noNul : '\x00' ∉ path.toList) :
    Text.beforeNul path = path := by
  have all : path.toList.takeWhile (fun c => c ≠ '\x00') = path.toList :=
    List.takeWhile_eq_self_iff.mpr fun c member => decide_eq_true fun nul => noNul (nul ▸ member)
  rw [Text.beforeNul, all, String.ofList_toList]

theorem locate?_name {name : String} (here : fs.nodeAt fs.current = some .directory)
    (noNul : '\x00' ∉ name.toList) (noSlash : '/' ∉ name.toList)
    (proper : 2 < name.utf8ByteSize) :
    fs.locate? name =
      if name.utf8ByteSize ≤ maxName then some (fs.current ++ [name]) else none := by
  have other {short : String} (few : short.utf8ByteSize ≤ 2) : name ≠ short := by
    rintro rfl
    omega
  have empty : name ≠ "" := other (by decide)
  have point : name ≠ "." := other (by decide)
  have points : name ≠ ".." := other (by decide)
  have single : Text.split '/' name = [name] := by
    rw [Text.split, Text.pieces_of_not_mem noSlash, List.map_singleton, String.ofList_toList]
  have step : fs.walk fs.current [name] =
      if name.utf8ByteSize ≤ maxName then some (fs.current ++ [name]) else none := by
    simp only [walk, here, empty, point, points, or_self, if_false, if_true]
  simp only [locate?, beforeNul_eq noNul, single]
  by_cases long : maxPath < name.utf8ByteSize
  · have order : maxName < maxPath := by decide
    rw [if_pos long, if_neg (by omega)]
  · rw [if_neg long, ← step]
    split
    · next none => exact absurd (String.toList_eq_nil_iff.mp none) empty
    · next slash => exact absurd (slash ▸ List.mem_cons_self) noSlash
    · rfl

theorem walk_of_locate? {path : String} {place : Place} (noNul : '\x00' ∉ path.toList)
    (h : fs.locate? path = some place) :
    path.toList ≠ [] ∧ fs.walk (fs.root path) (Text.split '/' path) = some place := by
  simp only [locate?, beforeNul_eq noNul] at h
  split_ifs at h
  split at h
  · cases h
  · next tail text =>
    refine ⟨by simp [text], ?_⟩
    rw [root, text, List.head?_cons, if_pos rfl]
    exact h
  · next empty relative =>
    refine ⟨empty, ?_⟩
    rw [root, if_neg]
    · exact h
    · intro head
      obtain ⟨tail, text⟩ := List.head?_eq_some_iff.mp head
      exact relative tail text

/-- Paths that differ in what stands behind a common text lead through a common directory. -/
theorem exists_folder (fs : FileSystem) {path : String} (nonempty : path.toList ≠ [])
    (noNul : '\x00' ∉ path.toList) :
    ∃ (folder : Option Place) (last : List Char), ∀ suffix : List Char, '/' ∉ suffix →
      '\x00' ∉ suffix → ∀ place, fs.locate? (path ++ String.ofList suffix) = some place →
        ∃ d, folder = some d ∧ fs.walk d [String.ofList (last ++ suffix)] = some place := by
  obtain ⟨front, last, grows⟩ := Text.exists_pieces_append '/' path.toList
  refine ⟨fs.walk (fs.root path) (front.map String.ofList), last, ?_⟩
  intro suffix free noNul' place located
  have noNul'' : '\x00' ∉ (path ++ String.ofList suffix).toList := by
    simp [noNul, noNul']
  obtain ⟨-, walked⟩ := walk_of_locate? noNul'' located
  have start : fs.root (path ++ String.ofList suffix) = fs.root path := by
    rw [root, root, String.toList_append, List.head?_append_of_ne_nil _ nonempty]
  rw [start, Text.split, String.toList_append, String.toList_ofList, grows suffix free,
    List.map_append, List.map_singleton, walk_append] at walked
  exact Option.bind_eq_some_iff.mp walked

end FileSystem

namespace Log.RollingFile

open FileSystem

variable {fs : FileSystem} {path : String}

def suffix (number : Nat) : List Char := '.' :: Nat.toDigits 10 number

theorem numbered_eq (path : String) (number : Nat) :
    numbered path number = path ++ String.ofList (suffix number) := by
  rw [numbered, Nat.toString_eq_ofList_toDigits, suffix, String.append_assoc,
    ← String.ofList_append]
  rfl

theorem not_mem_suffix {c : Char} (point : c ≠ '.') (digit : c.isDigit = false) (number : Nat) :
    c ∉ suffix number := by
  intro member
  rcases List.mem_cons.mp member with same | member
  · exact point same
  · have := Nat.isDigit_of_mem_toDigits (by decide) (by decide) member
    simp [digit] at this

theorem suffix_injective {a b : Nat} (h : suffix a = suffix b) : a = b := by
  have digits : Nat.toDigits 10 a = Nat.toDigits 10 b := (List.cons.inj h).2
  calc
    a = Nat.ofDigitChars 10 (Nat.toDigits 10 a) 0 := Nat.ofDigitChars_ten_toDigits.symm
    _ = Nat.ofDigitChars 10 (Nat.toDigits 10 b) 0 := by rw [digits]
    _ = b := Nat.ofDigitChars_ten_toDigits

theorem proper_suffix (last : List Char) (number : Nat) :
    String.ofList (last ++ suffix number) ≠ "" ∧ String.ofList (last ++ suffix number) ≠ "." ∧
      String.ofList (last ++ suffix number) ≠ ".." := by
  obtain ⟨d, ds, digits⟩ :=
    List.exists_cons_of_ne_nil (Nat.toDigits_ne_nil (n := number) (b := 10))
  have digit : d.isDigit = true :=
    Nat.isDigit_of_mem_toDigits (by decide) (by decide) (digits ▸ List.mem_cons_self)
  have other (text : List Char) (h : d ∉ text) :
      String.ofList (last ++ suffix number) ≠ .ofList text := by
    intro same
    have : last ++ suffix number = text := by simpa using congrArg String.toList same
    rw [← this, suffix, digits] at h
    simp at h
  refine ⟨other [] (by simp), other ['.'] ?_, other ['.', '.'] ?_⟩ <;>
  · intro member
    simp only [List.mem_cons, List.not_mem_nil, or_false, or_self] at member
    rw [member] at digit
    cases digit

/-- The place of a numbered file: the name of the log file with the number, in its directory. -/
theorem exists_place (fs : FileSystem) {path : String} (nonempty : path.toList ≠ [])
    (noNul : '\x00' ∉ path.toList) :
    ∃ (folder : Option Place) (last : List Char),
      (∀ place, fs.locate? path = some place → ∃ d, folder = some d ∧
        (place = d ∨ place = d.dropLast ∨ place = d ++ [String.ofList last])) ∧
      ∀ number place, fs.locate? (numbered path number) = some place → ∃ d, folder = some d ∧
        place = d ++ [String.ofList (last ++ suffix number)] := by
  obtain ⟨folder, last, leads⟩ := fs.exists_folder nonempty noNul
  refine ⟨folder, last, ?_, ?_⟩
  · intro place located
    obtain ⟨d, found, walked⟩ := leads [] (by simp) (by simp) place (by simpa using located)
    rw [List.append_nil] at walked
    exact ⟨d, found, walk_single walked⟩
  · intro number place located
    have slash := not_mem_suffix (c := '/') (by decide) (by decide) number
    have nul := not_mem_suffix (c := '\x00') (by decide) (by decide) number
    obtain ⟨d, found, walked⟩ := leads _ slash nul place (numbered_eq path number ▸ located)
    obtain ⟨empty, point, points⟩ := proper_suffix last number
    exact ⟨d, found, walk_proper empty point points walked⟩

theorem numbered_injective (nonempty : path.toList ≠ []) (noNul : '\x00' ∉ path.toList)
    {a b : Nat} {place : Place} (ha : fs.locate? (numbered path a) = some place)
    (hb : fs.locate? (numbered path b) = some place) : a = b := by
  obtain ⟨folder, last, -, leads⟩ := exists_place fs nonempty noNul
  obtain ⟨d, found, rfl⟩ := leads a place ha
  obtain ⟨d', found', same⟩ := leads b _ hb
  cases found.symm.trans found'
  apply suffix_injective
  simpa using congrArg String.toList (List.singleton_inj.mp (List.append_cancel_left same))

theorem live_ne_numbered (noNul : '\x00' ∉ path.toList) {number : Nat} {place : Place}
    (live : fs.locate? path = some place) : fs.locate? (numbered path number) ≠ some place := by
  have nonempty := (walk_of_locate? noNul live).1
  obtain ⟨folder, last, here, leads⟩ := exists_place fs nonempty noNul
  intro both
  obtain ⟨d, found, at_live⟩ := here place live
  obtain ⟨d', found', rfl⟩ := leads number place both
  cases found.symm.trans found'
  rcases at_live with same | above | beside
  · simpa using congrArg List.length same
  · have := congrArg List.length above
    simp at this
    omega
  · simp [suffix] at beside

end Log.RollingFile

end WireRecords
