import Mathlib.Algebra.Group.Nat.Even
import Mathlib.Data.List.Basic
import WireRecords.Bytes.Hex

/-!
# What hexadecimal texts denote

Without its separators a text denotes bytes exactly if it is an even number of digits of either
case, two for each byte. So neither the separators nor the case count. What is printed is read back,
and what was read is printed in lower case.
-/

namespace WireRecords.Hex

def DigitOf (c : Char) (n : Nat) : Prop := "0123456789abcdef".toList[n]? = some c.toLower

instance (c : Char) (n : Nat) : Decidable (DigitOf c n) := inferInstanceAs (Decidable (_ = _))

theorem digitOf_iff {c : Char} {n : Nat} : DigitOf c n ↔ n < 16 ∧ c.toLower = digit n := by
  have alphabet : ∀ n < 16, "0123456789abcdef".toList[n]? = some (digit n) := by decide
  rw [DigitOf]
  constructor
  · intro found
    obtain ⟨small, -⟩ := List.getElem?_eq_some_iff.mp found
    exact ⟨small, Option.some.inj (found.symm.trans (alphabet n small))⟩
  · rintro ⟨small, same⟩
    rw [alphabet n small, same]

theorem digitValue?_digit {n : Nat} (small : n < 16) : digitValue? (digit n) = some n := by
  revert n
  decide

theorem toLower_digit {n : Nat} (small : n < 16) : (digit n).toLower = digit n := by
  revert n
  decide

theorem digit_not_mem_separators {n : Nat} (small : n < 16) :
    digit n ∉ [' ', ':', '\t', '\n'] := by
  revert n
  decide

theorem toNat_lt_of_digitValue? {c : Char} {n : Nat} (h : digitValue? c = some n) :
    c.toNat < 128 := by
  have bound {top : Char} (below : c ≤ top) : c.toNat ≤ top.toNat := below
  rw [digitValue?] at h
  split at h
  · next decimal => exact Nat.lt_of_le_of_lt (bound decimal.2) (by decide)
  split at h
  · next small => exact Nat.lt_of_le_of_lt (bound small.2) (by decide)
  split at h
  · next large => exact Nat.lt_of_le_of_lt (bound large.2) (by decide)
  · cases h

theorem digitValue?_toLower (c : Char) : digitValue? c.toLower = digitValue? c := by
  by_cases upper : 'A'.val ≤ c.val ∧ c.val ≤ 'Z'.val
  · have ascii : ∀ k < 128, digitValue? (Char.ofNat k).toLower = digitValue? (Char.ofNat k) := by
      decide
    have known := ascii c.toNat (Nat.lt_of_le_of_lt upper.2 (by decide))
    rwa [Char.ofNat_toNat] at known
  · have same : c.toLower = c := dif_neg upper
    rw [same]

theorem digitValue?_eq_some_iff {c : Char} {n : Nat} : digitValue? c = some n ↔ DigitOf c n := by
  rw [digitOf_iff]
  constructor
  · intro h
    -- only the first 128 characters have a value, so they are gone through one by one
    have ascii : ∀ k < 128, ∀ n ∈ digitValue? (Char.ofNat k),
        n < 16 ∧ (Char.ofNat k).toLower = digit n := by decide
    have known := ascii c.toNat (toNat_lt_of_digitValue? h) n
    rw [Char.ofNat_toNat] at known
    exact known h
  · rintro ⟨small, same⟩
    rw [← digitValue?_toLower, same, digitValue?_digit small]

/-- Digits of either case, two for each byte, the high one first. -/
inductive Spells : List Char → Bytes → Prop where
  | nil : Spells [] []
  | cons {hi lo : Char} {h l : Nat} {ds : List Char} {bs : Bytes} (high : DigitOf hi h)
      (low : DigitOf lo l) (others : Spells ds bs) :
      Spells (hi :: lo :: ds) (UInt8.ofNat (16 * h + l) :: bs)

theorem ofDigits?_eq_some_iff {ds : List Char} {bs : Bytes} :
    ofDigits? ds = some bs ↔ Spells ds bs := by
  constructor
  · intro read
    fun_induction ofDigits? ds generalizing bs with
    | case1 =>
      cases read
      exact .nil
    | case2 c => cases read
    | case3 hi lo ds ih =>
      simp only [Option.bind_eq_bind, Option.bind_eq_some_iff, Option.pure_def,
        Option.some.injEq] at read
      obtain ⟨h, high, l, low, bs', others, rfl⟩ := read
      exact .cons (digitValue?_eq_some_iff.mp high) (digitValue?_eq_some_iff.mp low) (ih others)
  · intro spells
    induction spells with
    | nil => rfl
    | cons high low _ ih =>
      rw [ofDigits?, digitValue?_eq_some_iff.mpr high, digitValue?_eq_some_iff.mpr low, ih]
      rfl

theorem ofDigits?_toLower (ds : List Char) : ofDigits? (ds.map Char.toLower) = ofDigits? ds := by
  fun_induction ofDigits? ds with
  | case1 => rfl
  | case2 c => rfl
  | case3 hi lo ds ih =>
    simp only [List.map_cons, ofDigits?, digitValue?_toLower, ih]

theorem exists_spells {ds : List Char} (digits : ∀ c ∈ ds, ∃ n, DigitOf c n)
    (even : Even ds.length) : ∃ bs, Spells ds bs := by
  fun_induction ofDigits? ds with
  | case1 => exact ⟨[], .nil⟩
  | case2 c => exact absurd even (by simp)
  | case3 hi lo ds ih =>
    simp only [List.forall_mem_cons] at digits
    obtain ⟨⟨h, high⟩, ⟨l, low⟩, digits⟩ := digits
    obtain ⟨bs, others⟩ := ih digits (by simpa [Nat.even_add_one] using even)
    exact ⟨_, .cons high low others⟩

theorem toNat_halves {h l : Nat} (h_small : h < 16) (l_small : l < 16) :
    (UInt8.ofNat (16 * h + l)).toNat = 16 * h + l :=
  UInt8.toNat_ofNat_of_lt' (Nat.lt_of_lt_of_le (m := 256) (by omega) (by decide))

/-- The characters two by two, the last one alone if their number is odd. -/
def inPairs : List Char → List (List Char)
  | [] => []
  | [c] => [[c]]
  | hi :: lo :: ds => [hi, lo] :: inPairs ds

namespace Spells

variable {ds : List Char} {bs : Bytes}

theorem length_eq (spells : Spells ds bs) : ds.length = 2 * bs.length := by
  induction spells with
  | nil => rfl
  | cons _ _ _ ih =>
    simp only [List.length_cons, ih]
    omega

theorem exists_digitOf (spells : Spells ds bs) : ∀ c ∈ ds, ∃ n, DigitOf c n := by
  induction spells with
  | nil => simp
  | cons high low _ ih =>
    simp only [List.forall_mem_cons]
    exact ⟨⟨_, high⟩, ⟨_, low⟩, ih⟩

theorem byteAt (spells : Spells ds bs) {i : Nat} {b : UInt8} (at_i : bs[i]? = some b) :
    ∃ hi lo h l, ds[2 * i]? = some hi ∧ ds[2 * i + 1]? = some lo ∧
      DigitOf hi h ∧ DigitOf lo l ∧ b.toNat = 16 * h + l := by
  induction spells generalizing i with
  | nil => cases at_i
  | @cons hi lo h l ds bs high low _ ih =>
    cases i with
    | zero =>
      obtain rfl := Option.some.inj at_i
      exact ⟨hi, lo, h, l, rfl, rfl, high, low,
        toNat_halves (digitOf_iff.mp high).1 (digitOf_iff.mp low).1⟩
    | succ i => exact ih at_i

theorem map_pair (spells : Spells ds bs) : bs.map pair = inPairs (ds.map Char.toLower) := by
  induction spells with
  | nil => rfl
  | @cons hi lo h l ds bs high low _ ih =>
    obtain ⟨h_small, hi_eq⟩ := digitOf_iff.mp high
    obtain ⟨l_small, lo_eq⟩ := digitOf_iff.mp low
    have upper_half : (16 * h + l) / 16 = h := by omega
    have lower_half : (16 * h + l) % 16 = l := by omega
    rw [List.map_cons, List.map_cons, List.map_cons, inPairs, ih, hi_eq, lo_eq, pair,
      toNat_halves h_small l_small, upper_half, lower_half]

end Spells

theorem spells_digits (bs : Bytes) : Spells (digits bs) bs := by
  induction bs with
  | nil => exact .nil
  | cons b bs ih =>
    have bound := b.toNat_lt
    have halves : UInt8.ofNat (16 * (b.toNat / 16) + b.toNat % 16) = b := by
      rw [Nat.div_add_mod, UInt8.ofNat_toNat]
    have digitOf {n : Nat} (small : n < 16) : DigitOf (digit n) n :=
      digitOf_iff.mpr ⟨small, toLower_digit small⟩
    have cons := Spells.cons (digitOf (n := b.toNat / 16) (by omega))
      (digitOf (n := b.toNat % 16) (by omega)) ih
    rwa [halves] at cons

def stripped (s : String) : List Char := s.toList.filter fun c => c ∉ [' ', ':', '\t', '\n']

theorem parse_eq (s : String) : parse s = ofDigits? (stripped s) := by
  have same : (fun c => !isSeparator c) = fun c => decide (c ∉ [' ', ':', '\t', '\n']) := by
    funext c
    simp [isSeparator, Bool.and_assoc]
  rw [parse, same, stripped]

theorem filter_intercalate {p : Char → Bool} {separator : List Char}
    (dropped : separator.filter p = []) (texts : List (List Char)) :
    (separator.intercalate texts).filter p = texts.flatMap (List.filter p) := by
  induction texts with
  | nil => rfl
  | cons first texts ih =>
    cases texts with
    | nil => simp
    | cons second texts =>
      rw [List.intercalate_cons_cons, List.filter_append, List.filter_append, dropped, ih]
      simp

theorem stripped_render (bs : Bytes) : stripped (render bs) = digits bs := by
  have texts : (bs.map fun b => String.ofList (pair b)).map String.toList = bs.map pair := by
    simp [Function.comp_def]
  rw [stripped, render, String.toList_intercalate, filter_intercalate (by decide), texts,
    List.flatMap_map, digits]
  refine List.flatMap_congr fun b _ => List.filter_eq_self.mpr ?_
  have bound := b.toNat_lt
  have kept {n : Nat} (small : n < 16) := decide_eq_true (digit_not_mem_separators small)
  rw [pair, List.forall_mem_cons, List.forall_mem_singleton]
  exact ⟨kept (by omega), kept (by omega)⟩

/-- A text denotes bytes exactly if an even number of digits stays when the separators are taken
out. Two digits each are a byte, the high one first; so texts that differ in separators and letter
case only denote the same. Bytes that were read are printed as the digits in lower case, with blanks
between the pairs, and bytes that were printed are read back. -/
theorem parse_reads_pairs (s : String) :
    ((∃ bs, parse s = some bs) ↔
      (∀ c ∈ stripped s, ∃ n, DigitOf c n) ∧ Even (stripped s).length) ∧
    (∀ bs, parse s = some bs →
      (stripped s).length = 2 * bs.length ∧
      (∀ i b, bs[i]? = some b → ∃ hi lo h l,
        (stripped s)[2 * i]? = some hi ∧ (stripped s)[2 * i + 1]? = some lo ∧
          DigitOf hi h ∧ DigitOf lo l ∧ b.toNat = 16 * h + l) ∧
      render bs =
        " ".intercalate ((inPairs ((stripped s).map Char.toLower)).map String.ofList)) ∧
    (∀ t, (stripped t).map Char.toLower = (stripped s).map Char.toLower → parse t = parse s) ∧
    ∀ bs, parse (render bs) = some bs := by
  have read_iff {bs : Bytes} : parse s = some bs ↔ Spells (stripped s) bs := by
    rw [parse_eq, ofDigits?_eq_some_iff]
  refine ⟨?_, ?_, ?_, ?_⟩
  · constructor
    · rintro ⟨bs, read⟩
      have spells := read_iff.mp read
      exact ⟨spells.exists_digitOf, bs.length, by rw [spells.length_eq, Nat.two_mul]⟩
    · rintro ⟨all_digits, even⟩
      obtain ⟨bs, spells⟩ := exists_spells all_digits even
      exact ⟨bs, read_iff.mpr spells⟩
  · intro bs read
    have spells := read_iff.mp read
    refine ⟨spells.length_eq, fun i b => spells.byteAt, ?_⟩
    rw [render, ← spells.map_pair, List.map_map]
    rfl
  · intro t same
    rw [parse_eq, parse_eq, ← ofDigits?_toLower, same, ofDigits?_toLower]
  · intro bs
    rw [parse_eq, stripped_render]
    exact ofDigits?_eq_some_iff.mpr (spells_digits bs)

/-- A separator between the two digits of a byte, and letters of both cases. -/
theorem parse_reads_pairs_apart :
    parse "0 1:\nFf" = some [0x01, 0xFF] ∧ render [0x01, 0xFF] = "01 ff" ∧
      parse "01 ff" = parse "0 1:\nFf" := by
  obtain ⟨-, reads, alike, -⟩ := parse_reads_pairs "0 1:\nFf"
  have read : parse "0 1:\nFf" = some [0x01, 0xFF] := by decide +kernel
  obtain ⟨-, -, printed⟩ := reads _ read
  refine ⟨read, ?_, alike _ (by decide +kernel)⟩
  rw [printed]
  decide +kernel

end WireRecords.Hex
