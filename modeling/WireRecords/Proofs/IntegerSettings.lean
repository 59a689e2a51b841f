import Mathlib.Data.Nat.Digits.Defs
import WireRecords.Proofs.Flattening

/-!
# Integers in settings

An integer reaches the settings as a JSON number or as a text, and leaves them as a 64-bit integer
or as a text. A text is read as an integer exactly if it is a decimal numeral in range, and an
integer that no 64 signed bits hold stays the text of its digits, so none is ever lost.
-/

namespace WireRecords

namespace Literal

def spelled (ds : List Char) : Nat := Nat.ofDigits 10 (ds.reverse.map fun c => c.toNat - '0'.toNat)

/-- A text denotes an integer: decimal digits, one at least, with or without a minus in front. -/
inductive Denotes (text : String) : Int → Prop where
  | natural {ds : List Char} (some_digit : ds ≠ []) (digits : ∀ c ∈ ds, c.isDigit = true)
      (whole : text = String.ofList ds) : Denotes text (spelled ds)
  | negated {ds : List Char} (some_digit : ds ≠ []) (digits : ∀ c ∈ ds, c.isDigit = true)
      (whole : text = "-" ++ String.ofList ds) : Denotes text (-spelled ds)

theorem value_eq_spelled {ds : List Char} (digits : ∀ c ∈ ds, c.isDigit = true) :
    value 10 ds = spelled ds := by
  rw [value, spelled, Nat.ofDigits_eq_foldr, List.foldr_map, List.foldr_reverse]
  apply List.foldl_ext
  intro n c member
  rw [digitValue, isDigit_eq, if_pos (digits c member), Nat.add_comm]
  rfl

def fit? (n : Int) : Option Int64 :=
  if Int64.minValue.toInt ≤ n ∧ n ≤ Int64.maxValue.toInt then some (Int64.ofInt n) else none

theorem fit?_eq (n : Int) :
    fit? n = if -2 ^ 63 ≤ n ∧ n < 2 ^ 63 then some (Int64.ofInt n) else none := by
  have low : Int64.minValue.toInt = -2 ^ 63 := by decide
  have high : Int64.maxValue.toInt = 2 ^ 63 - 1 := by decide
  simp only [fit?, low, high, Int.le_sub_one_iff]

theorem fit?_eq_some_iff {n : Int} {m : Int64} : fit? n = some m ↔ m.toInt = n := by
  rw [fit?_eq]
  split_ifs with fits
  · have back : (Int64.ofInt n).toInt = n := Int64.toInt_ofInt_of_le fits.1 fits.2
    rw [Option.some.injEq]
    constructor
    · rintro rfl
      exact back
    · intro same
      rw [← Int64.toInt_inj, back, same]
  · have low := m.le_toInt
    have high := m.toInt_lt
    simp only [false_iff]
    omega

theorem fit?_eq_none_iff {n : Int} : fit? n = none ↔ n < -2 ^ 63 ∨ 2 ^ 63 ≤ n := by
  rw [fit?_eq]
  split_ifs
  · simp only [false_iff]
    omega
  · simp only [true_iff]
    omega

theorem int64?_of_denotes {text : String} {n : Int} (denotes : Denotes text n) :
    int64? text = fit? n := by
  have all_digits {ds : List Char} (digits : ∀ c ∈ ds, c.isDigit = true) :
      ds.all isDigit = true := List.all_eq_true.mpr digits
  cases denotes with
  | @natural ds some_digit digits whole =>
    rw [whole]
    unfold int64?
    rw [String.toList_ofList]
    split
    next sign =>
      split at sign
      -- the first digit would be a minus
      · exact absurd (digits '-' List.mem_cons_self) (by decide)
      · cases sign
        rw [if_pos ⟨some_digit, all_digits digits⟩, value_eq_spelled digits]
        rfl
  | @negated ds some_digit digits whole =>
    have characters : text.toList = '-' :: ds := by simp [whole]
    simp only [int64?, characters, if_pos (And.intro some_digit (all_digits digits)),
      value_eq_spelled digits, if_true]
    rfl

theorem exists_denotes {text : String} {n : Int64} (read : int64? text = some n) :
    ∃ m, Denotes text m := by
  unfold int64? at read
  split at read
  next sign =>
    split at read
    next shape =>
      have digits := List.all_eq_true.mp shape.2
      split at sign
      · next ds characters =>
        cases sign
        refine ⟨_, .negated shape.1 digits ?_⟩
        rw [← String.toList_inj, characters]
        simp
      · cases sign
        exact ⟨_, .natural shape.1 digits String.ofList_toList.symm⟩
    · cases read

theorem int64?_eq_some_iff {text : String} {n : Int64} :
    int64? text = some n ↔ Denotes text n.toInt := by
  constructor
  · intro read
    obtain ⟨m, denotes⟩ := exists_denotes read
    rw [int64?_of_denotes denotes] at read
    rwa [fit?_eq_some_iff.mp read]
  · intro denotes
    rw [int64?_of_denotes denotes, fit?_eq_some_iff]

theorem spelled_toDigits (n : Nat) : spelled (Nat.toDigits 10 n) = n := by
  rw [← value_eq_spelled fun _ => isDigit_of_mem_toDigits, value_toDigits]

theorem ofList_intText (n : Int) : String.ofList (Json.intText n) = toString n := by
  cases n with
  | ofNat n => rfl
  | negSucc n =>
    rw [Json.intText, if_pos (Int.negSucc_lt_zero n), ← String.toList_inj]
    show _ = ("-" ++ Nat.repr (n + 1)).toList
    simp [Nat.repr, Json.natText]

theorem toList_toString (n : Int) : (toString n).toList = Json.intText n := by
  rw [← ofList_intText, String.toList_ofList]

theorem denotes_toString (n : Int) : Denotes (toString n) n := by
  have digits : ∀ c ∈ Nat.toDigits 10 n.natAbs, c.isDigit = true :=
    fun _ => isDigit_of_mem_toDigits
  rw [← ofList_intText, Json.intText]
  split_ifs with negative
  · have denotes : Denotes (String.ofList ('-' :: Nat.toDigits 10 n.natAbs)) _ :=
      .negated Nat.toDigits_ne_nil digits String.ofList_cons
    rwa [spelled_toDigits, show -(n.natAbs : Int) = n by omega] at denotes
  · have denotes := Denotes.natural Nat.toDigits_ne_nil digits rfl
    rwa [spelled_toDigits, show (n.natAbs : Int) = n by omega] at denotes

end Literal

namespace Json

variable {j : Json} {n : Int}

/-- An integer in the storage that its numeral asks for. -/
def ofInteger (n : Int) : Json := if n < 0 then ofInt n else ofNat n.natAbs

theorem ofInteger_cases (low : -2 ^ 63 ≤ n) (high : n < 2 ^ 64) :
    n < 0 ∧ ofInteger n = signed (Int64.ofInt n) ∧ (Int64.ofInt n).toInt = n ∨
      0 ≤ n ∧ ofInteger n = unsigned (UInt64.ofNat n.natAbs) ∧
        (UInt64.ofNat n.natAbs).toNat = n.natAbs := by
  by_cases negative : n < 0
  · exact .inl ⟨negative, if_pos negative, Int64.toInt_ofInt_of_le low (by omega)⟩
  · have small : n.natAbs < UInt64.size := Nat.lt_of_lt_of_le (m := 2 ^ 64) (by omega) (by decide)
    exact .inr ⟨by omega, if_neg negative, UInt64.toNat_ofNat_of_lt' small⟩

theorem integer?_ofInteger (low : -2 ^ 63 ≤ n) (high : n < 2 ^ 64) :
    (ofInteger n).integer? = some n := by
  rcases ofInteger_cases low high with ⟨-, stored, back⟩ | ⟨nonneg, stored, back⟩
  · rw [stored, integer?, back]
  · rw [stored, integer?, back, Int.natAbs_of_nonneg nonneg]

theorem normal_ofInteger (low : -2 ^ 63 ≤ n) (high : n < 2 ^ 64) :
    (ofInteger n).normal = ofInteger n := by
  rcases ofInteger_cases low high with ⟨negative, stored, back⟩ | ⟨-, stored, -⟩
  · rw [stored, normal, back, if_pos negative]
  · rw [stored]
    rfl

theorem plain_ofInteger (n : Int) : (ofInteger n).Plain := by
  rw [ofInteger]
  split_ifs
  · exact .signed _
  · exact .unsigned _

theorem render_ofInteger (low : -2 ^ 63 ≤ n) (high : n < 2 ^ 64) (style : Style) (depth : Nat) :
    (ofInteger n).render style depth = intText n := by
  rcases ofInteger_cases low high with ⟨-, stored, back⟩ | ⟨nonneg, stored, back⟩
  · rw [stored, render, back]
  · rw [stored, render, back, intText, if_neg (Int.not_lt.mpr nonneg)]

theorem scanNumber_intText (low : -2 ^ 63 ≤ n) (high : n < 2 ^ 64) {tail : List Char}
    (ends : EndsNumber tail) : scanNumber (intText n ++ tail) = some (ofInteger n, tail) := by
  rw [intText, ofInteger]
  split_ifs with negative
  · have signed : -(n.natAbs : Int) = n := by omega
    rw [List.cons_append, scanNumber_minus (by omega) ends, signed, ofInt]
  · exact scanNumber_natText (by omega) ends

theorem parse?_member (key : String) (low : -2 ^ 63 ≤ n) (high : n < 2 ^ 64) :
    parse? (String.ofList ('{' :: (stringText key ++ ':' :: (intText n ++ ['}'])))) =
      some (.object [(key, ofInteger n)]) := by
  have plain : (object [(key, ofInteger n)]).Plain :=
    .object (List.pairwise_singleton _ _) (List.forall_mem_singleton.mpr (plain_ofInteger n))
  have text : (object [(key, ofInteger n)]).render none 0 ++ [] =
      '{' :: (stringText key ++ ':' :: (intText n ++ ['}'])) := by
    simp [render, renderMembers, gap, colon, render_ofInteger low high]
  rw [← text, plain.parse?_render none rfl, normal, normalMembers, normalMembers,
    normal_ofInteger low high]

theorem flat_of_integer? (integer : j.integer? = some n) (ms : List (String × Json)) :
    j ≠ .object ms := by
  rintro rfl
  cases integer

end Json

theorem Setting.ofJson?_of_integer? {j : Json} {n : Int} (integer : j.integer? = some n) :
    (n < 2 ^ 63 ∧ ∃ m : Int64, m.toInt = n ∧ ofJson? j = some (.int m)) ∨
      2 ^ 63 ≤ n ∧ ofJson? j = some (.text (toString n)) := by
  cases j with
  | signed m =>
    cases integer
    exact .inl ⟨m.toInt_lt, m, rfl, rfl⟩
  | unsigned m =>
    cases integer
    by_cases small : m.toNat < 1 <<< 63
    · refine .inl ⟨by omega, Int64.ofNat m.toNat, ?_, by rw [ofJson?, if_pos small]⟩
      rw [← Int64.ofInt_eq_ofNat]
      exact Int64.toInt_ofInt_of_le (by omega) (by omega)
    · refine .inr ⟨by omega, ?_⟩
      rw [ofJson?, if_neg small]
      rfl
  | _ => cases integer

namespace Settings

open Literal (Denotes)

variable {s : Settings} {key : String}

theorem getString_int {m : Int64} (stored : s.get? key = some (.int m)) (fallback : String) :
    s.getString key fallback = toString m.toInt := by
  rw [getString_of_get? stored, Setting.string?, Option.getD_some, Literal.ofList_intText]

theorem getInt_int {m : Int64} (stored : s.get? key = some (.int m)) (fallback : Int64) :
    s.getInt key fallback = m := getInt_of_get? stored fallback

theorem getString_text {text : String} (stored : s.get? key = some (.text text))
    (fallback : String) : s.getString key fallback = text := getString_of_get? stored fallback

theorem getInt_of_denotes {text : String} (stored : s.get? key = some (.text text))
    (fallback : Int64) {n : Int} (denotes : Denotes text n) :
    s.getInt key fallback = (Literal.fit? n).getD fallback := by
  rw [getInt_of_get? stored, Setting.int?, Literal.int64?_of_denotes denotes]

theorem getInt_of_beyond {text : String} (stored : s.get? key = some (.text text))
    (fallback : Int64) (beyond : ∀ n, Denotes text n → n < -2 ^ 63 ∨ 2 ^ 63 ≤ n) :
    s.getInt key fallback = fallback := by
  have unread : Literal.int64? text = none := by
    apply Option.eq_none_iff_forall_ne_some.mpr
    intro m read
    have fits := Literal.fit?_eq_none_iff.mpr (beyond _ (Literal.int64?_eq_some_iff.mp read))
    rw [Literal.fit?_eq_some_iff.mpr rfl] at fits
    cases fits
  rw [getInt_of_get? stored, Setting.int?, unread, Option.getD_none]

/-- A document gives a key an integer: the last leaf of the key that is not null holds it. -/
def GivesInteger (document key : String) (n : Int) : Prop :=
  ∃ ms before path leaf after, Json.parse? document = some (.object ms) ∧
    (Json.object ms).leaves = before ++ (path, leaf) :: after ∧ Text.dotted path = key ∧
    leaf.integer? = some n ∧ ∀ l ∈ after, Text.dotted l.1 = key → l.2 = .null

theorem givesInteger_member (key : String) {n : Int} (low : -2 ^ 63 ≤ n) (high : n < 2 ^ 64) :
    GivesInteger (String.ofList ('{' :: (Json.stringText key ++ ':' :: (Json.intText n ++ ['}']))))
      key n := by
  have integer := Json.integer?_ofInteger low high
  have leaf : (Json.object [(key, Json.ofInteger n)]).leaves = [([key], Json.ofInteger n)] := by
    rw [Json.leaves, Json.memberLeaves, Json.leaves_of_flat (Json.flat_of_integer? integer)]
    rfl
  exact ⟨_, [], [key], _, [], Json.parse?_member key low high, leaf, Text.dotted_singleton key,
    integer, List.forall_mem_nil _⟩

theorem GivesInteger.get?_loadJson? {document : String} {n : Int}
    (gives : GivesInteger document key n) (s : Settings) :
    ∃ loaded, s.loadJson? document = some loaded ∧
      ((n < 2 ^ 63 ∧ ∃ m : Int64, m.toInt = n ∧ loaded.get? key = some (.int m)) ∨
        2 ^ 63 ≤ n ∧ loaded.get? key = some (.text (toString n))) := by
  obtain ⟨ms, before, path, leaf, after, read, split, rfl, integer, nulls⟩ := gives
  have load : s.loadJson? document =
      some (s.setAll ((Json.object ms).leaves.filterMap settingOf?)) := by
    rw [loadJson?, documentMembers?, read, Option.map_some, flattenMembers_root]
  refine ⟨_, load, ?_⟩
  rcases Setting.ofJson?_of_integer? integer with ⟨small, m, same, given⟩ | ⟨large, given⟩
  · exact .inl ⟨small, m, same, get?_setAll_last s split given nulls⟩
  · exact .inr ⟨large, get?_setAll_last s split given nulls⟩

/-- An integer that a document gives to a key is read back as its decimal text, and as a number
unless 64 signed bits do not hold it. Numerals of all integers from the least signed to the greatest
unsigned one give them. A text is read as the integer that it denotes, if it denotes one in the
signed range; so it does not matter whether such an integer is stored as a number or as a text. -/
theorem integers_never_wrap (s : Settings) (key : String) (fallback : Int64) :
    (∀ document n, GivesInteger document key n → ∃ loaded, s.loadJson? document = some loaded ∧
      (∀ other, loaded.getString key other = toString n) ∧
      (n < 2 ^ 63 → (loaded.getInt key fallback).toInt = n) ∧
      (2 ^ 63 ≤ n → loaded.getInt key fallback = fallback)) ∧
    (∀ n : Int, -2 ^ 63 ≤ n → n < 2 ^ 64 →
      GivesInteger (String.ofList
        ('{' :: (Json.stringText key ++ ':' :: ((toString n).toList ++ ['}'])))) key n ∧
      ∀ tail, Json.EndsNumber tail → ∃ j, j.integer? = some n ∧
        Json.scanNumber ((toString n).toList ++ tail) = some (j, tail)) ∧
    (∀ text, s.get? key = some (.text text) →
      (∀ n, Denotes text n → -2 ^ 63 ≤ n → n < 2 ^ 63 → (s.getInt key fallback).toInt = n) ∧
      ((∀ n, Denotes text n → n < -2 ^ 63 ∨ 2 ^ 63 ≤ n) → s.getInt key fallback = fallback)) ∧
    ∀ (n : Int64) (other : String),
      let number := s.set key (.int n)
      let digits := s.set key (.text (toString n.toInt))
      number.getInt key fallback = n ∧ digits.getInt key fallback = n ∧
        number.getString key other = toString n.toInt ∧
        digits.getString key other = toString n.toInt := by
  refine ⟨?_, ?_, ?_, ?_⟩
  · intro document n gives
    obtain ⟨loaded, load, kept⟩ := gives.get?_loadJson? s
    refine ⟨loaded, load, ?_⟩
    rcases kept with ⟨small, m, rfl, stored⟩ | ⟨large, stored⟩
    · exact ⟨getString_int stored, fun _ => congrArg Int64.toInt (getInt_int stored fallback),
        fun large => absurd small (Int.not_lt.mpr large)⟩
    · refine ⟨getString_text stored, fun small => absurd small (Int.not_lt.mpr large), fun _ => ?_⟩
      rw [getInt_of_denotes stored fallback (Literal.denotes_toString n),
        Literal.fit?_eq_none_iff.mpr (.inr large), Option.getD_none]
  · intro n low high
    rw [Literal.toList_toString]
    exact ⟨givesInteger_member key low high, fun tail ends =>
      ⟨_, Json.integer?_ofInteger low high, Json.scanNumber_intText low high ends⟩⟩
  · intro text stored
    constructor
    · intro n denotes low high
      have back : (Int64.ofInt n).toInt = n := Int64.toInt_ofInt_of_le low high
      rw [getInt_of_denotes stored fallback denotes, Literal.fit?_eq_some_iff.mpr back,
        Option.getD_some, back]
    · exact getInt_of_beyond stored fallback
  · intro n other number digits
    have stored : number.get? key = some (.int n) := by simp [number, set, get?]
    have stored' : digits.get? key = some (.text (toString n.toInt)) := by simp [digits, set, get?]
    refine ⟨getInt_int stored fallback, ?_, getString_int stored other,
      getString_text stored' other⟩
    rw [getInt_of_denotes stored' fallback (Literal.denotes_toString n.toInt),
      Literal.fit?_eq_some_iff.mpr rfl, Option.getD_some]

/-- The first integer beyond the signed range, as a number and as a text, and leading zeros. -/
theorem integers_never_wrap_boundary :
    let s := empty.setAll [("t", .text "9223372036854775808"), ("z", .text "-009")]
    (∃ loaded, s.loadJson? "\x7b\"n\":9223372036854775808\x7d" = some loaded ∧
      loaded.getString "n" "" = "9223372036854775808" ∧ loaded.getInt "n" 5 = 5) ∧
    s.getInt "t" 5 = 5 ∧ (s.getInt "z" 5).toInt = -9 := by
  intro s
  obtain ⟨documents, numerals, -, -⟩ := integers_never_wrap s "n" 5
  obtain ⟨-, -, texts, -⟩ := integers_never_wrap s "t" 5
  obtain ⟨-, -, zeros, -⟩ := integers_never_wrap s "z" 5
  obtain ⟨gives, -⟩ := numerals 9223372036854775808 (by omega) (by omega)
  obtain ⟨loaded, load, text, -, large⟩ := documents _ _ gives
  refine ⟨⟨loaded, load, text "", large (by omega)⟩, ?_, ?_⟩
  · refine (texts "9223372036854775808" (by decide +kernel)).2 fun n denotes => ?_
    have unread : Literal.int64? "9223372036854775808" = none := by decide +kernel
    rwa [Literal.int64?_of_denotes denotes, Literal.fit?_eq_none_iff] at unread
  · have denotes : Denotes "-009" (-Literal.spelled ['0', '0', '9']) :=
      .negated (List.cons_ne_nil _ _) (List.all_eq_true.mp rfl) (by decide +kernel)
    exact (zeros "-009" (by decide +kernel)).1 (-9) denotes (by omega) (by omega)

end Settings

end WireRecords
