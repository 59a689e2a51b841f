import WireRecords.Identifier
import WireRecords.Proofs.Scalar
import Mathlib.Algebra.Order.Ring.Int
import Mathlib.Data.Int.ModEq

/-!
# Matching identifiers

A value of an integral type counts as one number: a truth value as 0 or 1, a character as the
unsigned number with the same bits, and anything else as itself. A candidate of an integral type
matches an identifier just if both count as the same number, whatever their widths and signs, so
nothing is cut off. A candidate of an enumeration matches only the same constant of the same
enumeration.
-/

namespace WireRecords

theorem Width.patterns_eq_two_pow (w : Width) : w.patterns = 2 ^ w.bits := by cases w <;> rfl

theorem IntKind.patterns_eq_two_pow (k : IntKind) :
    ((k.patterns : Nat) : Int) = 2 ^ k.width.bits := by
  rw [patterns, Width.patterns_eq_two_pow, Nat.cast_pow, Nat.cast_ofNat]

namespace IntegralType

def Holds (t : IntegralType) (n : Int) : Prop := t.least ≤ n ∧ n ≤ t.greatest

instance (t : IntegralType) (n : Int) : Decidable (t.Holds n) :=
  inferInstanceAs (Decidable (t.least ≤ n ∧ n ≤ t.greatest))

/-- The number as which a value of a type counts. -/
inductive CountsAs : IntegralType → Int → Int → Prop where
  | no : CountsAs boolean 0 0
  | yes : CountsAs boolean 1 1
  | unsigned (w : Width) (n : Int) : CountsAs (integer (.unsigned w)) n n
  | signed (w : Width) (n : Int) : CountsAs (integer (.signed w)) n n
  | character {k : IntKind} (h : k ∈ [.char, .wideChar, .char8, .char16, .char32]) {n m : Int}
      (low : 0 ≤ m) (high : m < 2 ^ k.width.bits) (same : m ≡ n [ZMOD 2 ^ k.width.bits]) :
      CountsAs (integer k) n m

theorem isCharacter_iff (k : IntKind) :
    k.isCharacter = true ↔ k ∈ [IntKind.char, .wideChar, .char8, .char16, .char32] := by
  cases k <;> simp [IntKind.isCharacter]

theorem CountsAs.eq_comparable {t : IntegralType} {n m : Int} (h : t.CountsAs n m) :
    m = t.comparable n := by
  cases h with
  | no => rfl
  | yes => rfl
  | unsigned w => rfl
  | signed w => rfl
  | @character k h _ _ low high same =>
    rw [comparable, if_pos ((isCharacter_iff k).mpr h), k.patterns_eq_two_pow, ← same]
    exact (Int.emod_eq_of_lt low high).symm

theorem countsAs_comparable {t : IntegralType} {n : Int} (h : t.Holds n) :
    t.CountsAs n (t.comparable n) := by
  cases t with
  | boolean =>
    obtain ⟨low, high⟩ := h
    simp only [least, greatest] at low high
    have two : n = 0 ∨ n = 1 := by omega
    rcases two with rfl | rfl
    · exact .no
    · exact .yes
  | integer k =>
    by_cases hk : k.isCharacter = true
    · have pos : (0 : Int) < 2 ^ k.width.bits := pow_pos (by decide) _
      rw [comparable, if_pos hk, k.patterns_eq_two_pow]
      exact .character ((isCharacter_iff k).mp hk) (Int.emod_nonneg n pos.ne')
        (Int.emod_lt_of_pos n pos) (Int.mod_modEq n _)
    · rw [comparable, if_neg hk]
      cases k with
      | unsigned w => exact .unsigned w n
      | signed w => exact .signed w n
      | _ => exact absurd rfl hk

theorem comparable_injOn {t : IntegralType} {a b : Int} (ha : t.Holds a) (hb : t.Holds b)
    (h : t.comparable a = t.comparable b) : a = b := by
  cases t with
  | boolean => exact h
  | integer k =>
    by_cases hk : k.isCharacter = true
    · -- a value of the type is determined by its residue
      rw [comparable, comparable, if_pos hk, if_pos hk] at h
      calc a
        _ = k.valueOfBits (a % (k.patterns : Int)).toNat :=
          (IntKind.valueOfBits_emod ha.1 ha.2).symm
        _ = k.valueOfBits (b % (k.patterns : Int)).toNat := by rw [h]
        _ = b := IntKind.valueOfBits_emod hb.1 hb.2
    · rwa [comparable, comparable, if_neg hk, if_neg hk] at h

end IntegralType

namespace Tag

def Valid (tag : Tag) : Prop := tag.type.base.Holds tag.value

instance (tag : Tag) : Decidable tag.Valid :=
  inferInstanceAs (Decidable (tag.type.base.Holds tag.value))

def CountsAs (tag : Tag) (m : Int) : Prop := tag.type.base.CountsAs tag.value m

variable {identifier candidate : Tag}

theorem eq_iff {a b : Tag} : a = b ↔ a.type = b.type ∧ a.value = b.value := by
  cases a
  cases b
  simp only [Tag.mk.injEq]

theorem matchedBy_enumeration_iff {name : String} {base : IntegralType}
    (h : candidate.type = .enumeration name base) :
    identifier.matchedBy candidate = true ↔ candidate = identifier := by
  rw [matchedBy, h]
  exact decide_eq_true_iff

theorem matchedBy_integral_iff {t : IntegralType} (h : candidate.type = .integral t) :
    identifier.matchedBy candidate = true ↔
      candidate.type.base.comparable candidate.value =
        identifier.type.base.comparable identifier.value := by
  rw [matchedBy, h]
  exact decide_eq_true_iff

theorem matchedBy_self (tag : Tag) : tag.matchedBy tag = true := by
  cases h : tag.type with
  | integral t => exact (matchedBy_integral_iff h).mpr rfl
  | enumeration name base => exact (matchedBy_enumeration_iff h).mpr rfl

theorem existsUnique_countsAs {tag : Tag} (h : tag.Valid) : ∃! m, tag.CountsAs m :=
  ⟨_, IntegralType.countsAs_comparable h, fun _ counts => counts.eq_comparable⟩

theorem matchedBy_iff_of_type_eq (hi : identifier.Valid) (hc : candidate.Valid)
    (same : candidate.type = identifier.type) :
    identifier.matchedBy candidate = true ↔ candidate.value = identifier.value := by
  cases h : candidate.type with
  | integral t =>
    rw [matchedBy_integral_iff h, same]
    constructor
    · exact IntegralType.comparable_injOn (same ▸ hc) hi
    · exact congrArg _
  | enumeration name base =>
    rw [matchedBy_enumeration_iff h, eq_iff]
    exact and_iff_right same

/-- Every constant counts as exactly one number. A candidate of an enumeration matches an identifier
just if it has the same type and the same value, and one of an integral type just if both count as
the same number. So an identifier matches itself and no other value of its type, and no integral
candidate that counts as another number. -/
theorem matchedBy_exact (hi : identifier.Valid) (hc : candidate.Valid) :
    ((∃! m, identifier.CountsAs m) ∧ ∃! m, candidate.CountsAs m) ∧
    (∀ name base, candidate.type = .enumeration name base →
      (identifier.matchedBy candidate = true ↔
        candidate.type = identifier.type ∧ candidate.value = identifier.value)) ∧
    (∀ t, candidate.type = .integral t →
      (identifier.matchedBy candidate = true ↔
        ∃ m, candidate.CountsAs m ∧ identifier.CountsAs m) ∧
      ∀ m n, candidate.CountsAs m → identifier.CountsAs n → m ≠ n →
        identifier.matchedBy candidate = false) ∧
    identifier.matchedBy identifier = true ∧
    (candidate.type = identifier.type →
      (identifier.matchedBy candidate = true ↔ candidate.value = identifier.value)) := by
  refine ⟨⟨existsUnique_countsAs hi, existsUnique_countsAs hc⟩, ?_, ?_, matchedBy_self identifier,
    matchedBy_iff_of_type_eq hi hc⟩
  · intro name base h
    rw [matchedBy_enumeration_iff h, eq_iff]
  · intro t h
    constructor
    · rw [matchedBy_integral_iff h]
      constructor
      · intro same
        exact ⟨_, IntegralType.countsAs_comparable hc, same ▸ IntegralType.countsAs_comparable hi⟩
      · rintro ⟨m, counts, counts'⟩
        rw [← counts.eq_comparable, ← counts'.eq_comparable]
    · intro m n counts counts' ne
      rw [← Bool.not_eq_true, matchedBy_integral_iff h, ← counts.eq_comparable,
        ← counts'.eq_comparable]
      exact ne

/-- A character with its highest bit set counts as 255, which a wider integer can be and no negative
one is. A byte does not match a number that only ends in its bits. -/
theorem matchedBy_exact_char :
    let high : Tag := ⟨.integral (.integer .char), -1⟩
    let wide (n : Int) : Tag := ⟨.integral (.integer (.signed .four)), n⟩
    let byte : Tag := ⟨.integral (.integer (.unsigned .one)), 42⟩
    high.Valid ∧ byte.Valid ∧ (∀ n ∈ [255, -1, 298, -214], (wide n).Valid) ∧
      high.matchedBy (wide 255) = true ∧ high.matchedBy (wide (-1)) = false ∧
      byte.matchedBy (wide 298) = false ∧ byte.matchedBy (wide (-214)) = false := by
  intro high wide byte
  have hh : high.Valid := by decide
  have hb : byte.Valid := by decide
  have hw : ∀ n ∈ [255, -1, 298, -214], (wide n).Valid := by decide
  have counts : high.CountsAs 255 := .character (by decide) (by decide) (by decide) (by decide)
  have itself (n : Int) : (wide n).CountsAs n := .signed .four n
  have itself' : byte.CountsAs 42 := .unsigned .one 42
  refine ⟨hh, hb, hw, ?_, ?_, ?_, ?_⟩
  · obtain ⟨-, -, integral, -⟩ := matchedBy_exact hh (hw 255 (by decide))
    exact (integral _ rfl).1.mpr ⟨255, itself 255, counts⟩
  · obtain ⟨-, -, integral, -⟩ := matchedBy_exact hh (hw (-1) (by decide))
    exact (integral _ rfl).2 (-1) 255 (itself _) counts (by decide)
  · obtain ⟨-, -, integral, -⟩ := matchedBy_exact hb (hw 298 (by decide))
    exact (integral _ rfl).2 298 42 (itself _) itself' (by decide)
  · obtain ⟨-, -, integral, -⟩ := matchedBy_exact hb (hw (-214) (by decide))
    exact (integral _ rfl).2 (-214) 42 (itself _) itself' (by decide)

end Tag

end WireRecords
