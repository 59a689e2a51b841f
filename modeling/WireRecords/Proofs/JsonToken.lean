import Mathlib.Data.List.Basic
import Mathlib.Data.List.DropRight
import Mathlib.Data.List.TakeDrop
import WireRecords.Json.Parse
import WireRecords.Json.Print

/-!
# Tokens of JSON text

The tokens that are written are read back: strings through their escapes, and numbers part by part,
an integer in unsigned storage unless it has a minus. A reader takes no more than its token,
provided that what follows does not carry a number on.
-/

namespace WireRecords

namespace Literal

theorem isDigit_eq (c : Char) : isDigit c = c.isDigit := rfl

theorem value_eq_ofDigitChars {ds : List Char} (digits : ∀ c ∈ ds, isDigit c = true) :
    value 10 ds = Nat.ofDigitChars 10 ds 0 := by
  apply List.foldl_ext
  intro n c hc
  rw [digitValue, if_pos (digits c hc)]

theorem isDigit_of_mem_toDigits {n : Nat} {c : Char} (h : c ∈ Nat.toDigits 10 n) :
    isDigit c = true :=
  (isDigit_eq c).trans (Nat.isDigit_of_mem_toDigits (by decide) (by decide) h)

theorem value_toDigits (n : Nat) : value 10 (Nat.toDigits 10 n) = n := by
  rw [value_eq_ofDigitChars fun _ => isDigit_of_mem_toDigits, Nat.ofDigitChars_ten_toDigits]

theorem toDigits_eq_cons {n : Nat} (h : 0 < n) : ∃ d ds, Nat.toDigits 10 n = d :: ds ∧ d ≠ '0' := by
  induction n using Nat.strongRecOn with
  | ind n ih =>
    by_cases small : n < 10
    · exact ⟨_, [], Nat.toDigits_of_lt_base small, Nat.digitChar_eq_zero.not.mpr (by omega)⟩
    · obtain ⟨d, ds, front, nonzero⟩ :=
        ih (n / 10) (Nat.div_lt_self h (by decide)) (Nat.div_pos (by omega) (by decide))
      refine ⟨d, ds ++ [(n % 10).digitChar], ?_, nonzero⟩
      rw [Nat.toDigits_eq_if (by decide), if_neg small, front, List.cons_append]

end Literal

namespace Json

theorem skipSpace_cons {c : Char} (h : isSpace c = false) (cs : List Char) :
    skipSpace (c :: cs) = c :: cs := by
  rw [skipSpace, List.dropWhile_cons, if_neg (by simp [h])]

theorem skipSpace_replicate (n : Nat) (cs : List Char) :
    skipSpace (List.replicate n ' ' ++ cs) = skipSpace cs :=
  List.dropWhile_append_of_pos fun _ h => by rw [List.eq_of_mem_replicate h]; rfl

theorem skipSpace_gap (style : Style) (depth : Nat) (cs : List Char) :
    skipSpace (gap style depth ++ cs) = skipSpace cs := by
  cases style with
  | none => rfl
  | some n => exact skipSpace_replicate (n * depth) cs

/-- What may follow a number: nothing that would carry it on. -/
def EndsNumber (tail : List Char) : Prop :=
  ∀ c ∈ tail.head?, Literal.isDigit c = false ∧ c ≠ '.' ∧ c ≠ 'e' ∧ c ≠ 'E'

theorem endsNumber_nil : EndsNumber [] := fun _ h => by cases h

theorem endsNumber_cons {c : Char} (digit : Literal.isDigit c = false) (point : c ≠ '.')
    (e : c ≠ 'e') (E : c ≠ 'E') (cs : List Char) : EndsNumber (c :: cs) := by
  intro c' h
  cases h
  exact ⟨digit, point, e, E⟩

def EndsDigits (tail : List Char) : Prop := ∀ c ∈ tail.head?, Literal.isDigit c = false

def EndsFraction (tail : List Char) : Prop :=
  ∀ c ∈ tail.head?, Literal.isDigit c = false ∧ c ≠ '.'

theorem EndsNumber.endsDigits {tail : List Char} (ends : EndsNumber tail) : EndsDigits tail :=
  fun c h => (ends c h).1

theorem span_isDigit {ds tail : List Char} (digits : ∀ c ∈ ds, Literal.isDigit c = true)
    (ends : EndsDigits tail) : (ds ++ tail).span Literal.isDigit = (ds, tail) := by
  rw [List.span_eq_takeWhile_dropWhile, List.takeWhile_append_of_pos digits,
    List.dropWhile_append_of_pos digits]
  cases tail with
  | nil => simp
  | cons c cs => simp [ends c rfl]

inductive Whole : List Char → Prop where
  | zero : Whole ['0']
  | digits {d : Char} {ds : List Char} (nonzero : d ≠ '0')
      (digits : ∀ c ∈ d :: ds, Literal.isDigit c = true) : Whole (d :: ds)

theorem whole_natText (n : Nat) : Whole (natText n) := by
  rcases Nat.eq_zero_or_pos n with rfl | pos
  · exact .zero
  · obtain ⟨d, ds, text, nonzero⟩ := Literal.toDigits_eq_cons pos
    have digits : ∀ c ∈ natText n, Literal.isDigit c = true :=
      fun _ => Literal.isDigit_of_mem_toDigits
    rw [natText, text] at digits ⊢
    exact .digits nonzero digits

theorem Whole.eq_cons {ds : List Char} (h : Whole ds) :
    ∃ c cs, ds = c :: cs ∧ Literal.isDigit c = true := by
  cases h with
  | zero => exact ⟨'0', [], rfl, rfl⟩
  | @digits d ds _ digits => exact ⟨d, ds, rfl, digits d List.mem_cons_self⟩

theorem scanWhole_append {ds tail : List Char} (whole : Whole ds) (ends : EndsDigits tail) :
    scanWhole (ds ++ tail) = some (ds, tail) := by
  cases whole with
  | zero => rfl
  | @digits d ds nonzero digits =>
    have spanned := span_isDigit digits ends
    unfold scanWhole
    split
    · next starts => exact absurd (List.cons.inj starts).1 nonzero
    · rw [spanned]
      rfl

/-- The parts of a number without its sign. -/
structure Numeral where
  whole : List Char
  fraction : Option (List Char)
  exponent : Option Int
  wholeDigits : Whole whole
  fractionDigits : ∀ ds ∈ fraction, ds ≠ [] ∧ ∀ c ∈ ds, Literal.isDigit c = true

namespace Numeral

variable (n : Numeral)

def ofNat (n : Nat) : Numeral := ⟨natText n, none, none, whole_natText n, by simp⟩

def fractionText : List Char :=
  match n.fraction with
  | none => []
  | some ds => '.' :: ds

def exponentText : List Char :=
  match n.exponent with
  | none => []
  | some e => 'e' :: Decimal.exponentText e

def text : List Char := n.whole ++ (n.fractionText ++ n.exponentText)

end Numeral

theorem natText_eq_text (n : Nat) : natText n = (Numeral.ofNat n).text :=
  (List.append_nil _).symm

theorem scanFraction_of_ends {tail : List Char} (ends : EndsFraction tail) :
    scanFraction tail = some (none, tail) := by
  unfold scanFraction
  split
  · exact absurd rfl (ends '.' rfl).2
  · rfl

theorem scanFraction_append (n : Numeral) {tail : List Char} (ends : EndsFraction tail) :
    scanFraction (n.fractionText ++ tail) = some (n.fraction, tail) := by
  rw [Numeral.fractionText]
  cases fraction : n.fraction with
  | none => exact scanFraction_of_ends ends
  | some ds =>
    obtain ⟨nonempty, digits⟩ := n.fractionDigits ds fraction
    have spanned := span_isDigit digits fun c h => (ends c h).1
    simp only [List.cons_append, scanFraction, spanned, if_neg nonempty]

theorem exponentText_eq (e : Int) :
    ∃ ds, Decimal.exponentText e = (if e < 0 then '-' else '+') :: ds ∧ ds ≠ [] ∧
      (∀ c ∈ ds, Literal.isDigit c = true) ∧ Literal.value 10 ds = e.natAbs := by
  have digits : ∀ c ∈ Nat.toDigits 10 e.natAbs, Literal.isDigit c = true :=
    fun _ => Literal.isDigit_of_mem_toDigits
  refine ⟨_, rfl, ?_⟩
  split
  · refine ⟨List.cons_ne_nil _ _, ?_, Literal.value_toDigits e.natAbs⟩
    intro c member
    rcases List.mem_cons.mp member with rfl | member
    · rfl
    · exact digits c member
  · exact ⟨Nat.toDigits_ne_nil, digits, Literal.value_toDigits e.natAbs⟩

theorem scanExponent_append (n : Numeral) {tail : List Char} (ends : EndsNumber tail) :
    scanExponent (n.exponentText ++ tail) = some (n.exponent, tail) := by
  rw [Numeral.exponentText]
  cases n.exponent with
  | none =>
    cases tail with
    | nil => rfl
    | cons c cs =>
      obtain ⟨-, -, e, E⟩ := ends c rfl
      simp [scanExponent, e, E]
  | some e =>
    obtain ⟨ds, text, nonempty, digits, value⟩ := exponentText_eq e
    have spanned := span_isDigit digits ends.endsDigits
    have sign :
        Literal.scanSign (Decimal.exponentText e ++ tail) = (decide (e < 0), ds ++ tail) := by
      rw [text]
      by_cases negative : e < 0 <;> simp [Literal.scanSign, negative]
    have signed : (if decide (e < 0) = true then -(e.natAbs : Int) else e.natAbs) = e := by
      simp only [decide_eq_true_eq]
      omega
    simp only [List.cons_append, scanExponent, true_or, if_true, sign, spanned, if_neg nonempty,
      value, signed]

theorem endsFraction_exponentText (n : Numeral) {tail : List Char} (ends : EndsNumber tail) :
    EndsFraction (n.exponentText ++ tail) := by
  intro c member
  rw [Numeral.exponentText] at member
  cases exponent : n.exponent with
  | none =>
    rw [exponent] at member
    exact ⟨(ends c member).1, (ends c member).2.1⟩
  | some e =>
    rw [exponent] at member
    cases member
    decide

theorem endsDigits_fractionText (n : Numeral) {tail : List Char} (ends : EndsFraction tail) :
    EndsDigits (n.fractionText ++ tail) := by
  intro c member
  rw [Numeral.fractionText] at member
  cases fraction : n.fraction with
  | none =>
    rw [fraction] at member
    exact (ends c member).1
  | some ds =>
    rw [fraction] at member
    cases member
    rfl

theorem Numeral.text_eq_cons (n : Numeral) :
    ∃ c cs, n.text = c :: cs ∧ Literal.isDigit c = true := by
  obtain ⟨c, cs, whole, digit⟩ := n.wholeDigits.eq_cons
  exact ⟨c, _, by rw [text, whole, List.cons_append], digit⟩

/-- The reader takes a number apart as it is written. -/
theorem scanNumber_text (n : Numeral) (negative : Bool) {tail : List Char}
    (ends : EndsNumber tail) :
    scanNumber ((if negative then '-' :: n.text else n.text) ++ tail) =
      (number? negative n.whole n.fraction n.exponent).map fun j => (j, tail) := by
  have atPoint := endsFraction_exponentText n ends
  have whole := scanWhole_append n.wholeDigits (endsDigits_fractionText n atPoint)
  have fraction := scanFraction_append n atPoint
  have exponent := scanExponent_append n ends
  have parts : n.text ++ tail = n.whole ++ (n.fractionText ++ (n.exponentText ++ tail)) := by
    simp only [Numeral.text, List.append_assoc]
  cases negative with
  | true =>
    simp only [if_true, List.cons_append, parts, scanNumber, whole, fraction, exponent,
      Option.bind_eq_bind, Option.bind_some]
    cases number? true n.whole n.fraction n.exponent <;> rfl
  | false =>
    obtain ⟨c, cs, text, digit⟩ := n.text_eq_cons
    have noMinus : c ≠ '-' := by
      rintro rfl
      cases digit
    rw [← parts, text, List.cons_append] at whole
    rw [if_neg Bool.false_ne_true, text, List.cons_append]
    unfold scanNumber
    split
    next sign =>
      split at sign
      · next starts => exact absurd (List.cons.inj starts).1 noMinus
      · cases sign
        rw [whole]
        simp only [Option.bind_eq_bind, Option.bind_some, fraction, exponent]
        cases number? false n.whole n.fraction n.exponent <;> rfl

theorem natText_eq_cons (n : Nat) : ∃ d ds, natText n = d :: ds ∧ Literal.isDigit d = true :=
  (whole_natText n).eq_cons

theorem scanNumber_natText {n : Nat} (fits : n < 1 <<< 64) {tail : List Char}
    (ends : EndsNumber tail) :
    scanNumber (natText n ++ tail) = some (unsigned (UInt64.ofNat n), tail) := by
  have value : number? false (natText n) none none = some (unsigned (UInt64.ofNat n)) := by
    simp only [number?, natText, Literal.value_toDigits, Bool.false_eq_true, if_false, if_pos fits]
  have read := scanNumber_text (.ofNat n) false ends
  rw [if_neg Bool.false_ne_true, ← natText_eq_text] at read
  exact read.trans (congrArg _ value)

theorem scanNumber_minus {n : Nat} (fits : n ≤ 1 <<< 63) {tail : List Char}
    (ends : EndsNumber tail) :
    scanNumber ('-' :: (natText n ++ tail)) = some (signed (Int64.ofInt (-(n : Int))), tail) := by
  have value : number? true (natText n) none none = some (signed (Int64.ofInt (-(n : Int)))) := by
    simp only [number?, natText, Literal.value_toDigits, if_true, if_pos fits]
  have read := scanNumber_text (.ofNat n) true ends
  rw [if_pos rfl, ← natText_eq_text] at read
  exact read.trans (congrArg _ value)

theorem codeUnit?_control {n : Nat} (h : n < 0x20) :
    codeUnit? '0' '0' (Nat.digitChar (n / 16)) (Nat.digitChar (n % 16)) = some n := by
  have all : ∀ n ∈ List.range 0x20,
      codeUnit? '0' '0' (Nat.digitChar (n / 16)) (Nat.digitChar (n % 16)) = some n := by decide
  exact all n (List.mem_range.mpr h)

theorem scanString_plain {c : Char} (quote : c ≠ '"') (backslash : c ≠ '\\')
    (printable : ¬ c.toNat < 0x20) (cs : List Char) :
    scanString (c :: cs) = (scanString cs).map fun (s, rest) => (c :: s, rest) := by
  rw [scanString.eq_5 c cs quote (fun _ _ _ _ _ h _ => backslash h) (fun _ _ h _ => backslash h),
    if_neg printable]

theorem scanString_unescape {x c : Char} (escape : unescape? x = some c) (cs : List Char) :
    scanString ('\\' :: x :: cs) = (scanString cs).map fun (s, rest) => (c :: s, rest) := by
  have noUnit : x ≠ 'u' := by
    rintro rfl
    cases escape
  rw [scanString.eq_4 x cs (fun _ _ _ _ _ h _ => noUnit h), escape]

theorem scanString_control {c : Char} (control : c.toNat < 0x20) (cs : List Char) :
    scanString ('\\' :: 'u' :: '0' :: '0' :: Nat.digitChar (c.toNat / 16) ::
      Nat.digitChar (c.toNat % 16) :: cs) =
      (scanString cs).map fun (s, rest) => (c :: s, rest) := by
  have noSurrogate : ¬ (0xD800 ≤ c.toNat ∧ c.toNat < 0xDC00) ∧
      ¬ (0xDC00 ≤ c.toNat ∧ c.toNat < 0xE000) := by omega
  rw [scanString.eq_3, codeUnit?_control control]
  simp only [noSurrogate, if_false, Char.ofNat_toNat]

theorem scanString_escapeChar (c : Char) (cs : List Char) :
    scanString (escapeChar c ++ cs) = (scanString cs).map fun (s, rest) => (c :: s, rest) := by
  unfold escapeChar
  split_ifs with quote backslash b f n r t control
  · subst quote
    exact scanString_unescape rfl cs
  · subst backslash
    exact scanString_unescape rfl cs
  · subst b
    exact scanString_unescape rfl cs
  · subst f
    exact scanString_unescape rfl cs
  · subst n
    exact scanString_unescape rfl cs
  · subst r
    exact scanString_unescape rfl cs
  · subst t
    exact scanString_unescape rfl cs
  · exact scanString_control control cs
  · exact scanString_plain quote backslash control cs

theorem scanString_flatMap (s rest : List Char) :
    scanString (s.flatMap escapeChar ++ '"' :: rest) = some (s, rest) := by
  induction s with
  | nil => rfl
  | cons c s ih =>
    rw [List.flatMap_cons, List.append_assoc, scanString_escapeChar, ih]
    rfl

theorem stringText_append (s : String) (rest : List Char) :
    stringText s ++ rest = '"' :: (s.toList.flatMap escapeChar ++ '"' :: rest) := by
  rw [stringText, List.cons_append, List.append_assoc, List.singleton_append]

end Json

end WireRecords
