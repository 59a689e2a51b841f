import WireRecords.Json.Print
import Mathlib.Data.List.Basic

/-!
# Compact texts on one line

A compact text holds no control character: those inside strings are escaped, and everything that
stands between them is printable. So it is a single line, whatever the strings hold.
-/

namespace WireRecords.Json

/-- No control characters. -/
def Printable (cs : List Char) : Prop := ∀ c ∈ cs, 0x20 ≤ c.toNat

@[simp] theorem printable_nil : Printable [] := List.forall_mem_nil _

@[simp] theorem printable_cons {c : Char} {cs : List Char} :
    Printable (c :: cs) ↔ 0x20 ≤ c.toNat ∧ Printable cs := List.forall_mem_cons

@[simp] theorem printable_append {cs ds : List Char} :
    Printable (cs ++ ds) ↔ Printable cs ∧ Printable ds := List.forall_mem_append

theorem Printable.not_mem_newline {cs : List Char} (h : Printable cs) : '\n' ∉ cs := by
  intro member
  exact absurd (h _ member) (by decide)

theorem printable_of_digits {cs : List Char} (digits : ∀ c ∈ cs, c.isDigit = true) :
    Printable cs := by
  intro c member
  have low := (Char.isDigit_iff_toNat.mp (digits c member)).1
  exact Nat.le_trans (by decide) low

theorem printable_toDigits (n : Nat) : Printable (Nat.toDigits 10 n) :=
  printable_of_digits fun _ => Nat.isDigit_of_mem_toDigits (by decide) (by decide)

theorem printable_zeros (n : Nat) : Printable (List.replicate n '0') := by
  intro c member
  rw [List.eq_of_mem_replicate member]
  decide

theorem printable_intText (n : Int) : Printable (intText n) := by
  have digits := printable_toDigits n.natAbs
  rw [intText]
  split
  · exact printable_cons.mpr ⟨by decide, digits⟩
  · exact digits

theorem printable_exponentText (e : Int) : Printable (Decimal.exponentText e) := by
  have digits := printable_toDigits e.natAbs
  rw [Decimal.exponentText]
  refine printable_cons.mpr ⟨?_, ?_⟩
  · split <;> decide
  · split
    · exact printable_cons.mpr ⟨by decide, digits⟩
    · exact digits

theorem printable_mantissaText {ds : List Char} (digits : Printable ds) :
    Printable (Decimal.mantissaText ds) := by
  match ds with
  | [] => exact digits
  | [d] => exact digits
  | d :: d' :: ds =>
    obtain ⟨first, others⟩ := printable_cons.mp digits
    exact printable_cons.mpr ⟨first, printable_cons.mpr ⟨by decide, others⟩⟩

theorem printable_positionalText (d : Decimal) : Printable d.positionalText := by
  have digits : Printable d.digitChars := printable_toDigits d.digits
  rw [Decimal.positionalText]
  split_ifs
  · simp [printable_zeros, digits]
  · simp [printable_zeros, digits]
  · have front : Printable (d.digitChars.take d.point.toNat) :=
      fun c member => digits c (List.mem_of_mem_take member)
    have back : Printable (d.digitChars.drop d.point.toNat) :=
      fun c member => digits c (List.mem_of_mem_drop member)
    simp [front, back]

theorem printable_decimalText (d : Decimal) : Printable (decimalText d) := by
  have digits : Printable d.digitChars := printable_toDigits d.digits
  rw [decimalText]
  split_ifs
  · simp [printable_positionalText]
  · exact printable_positionalText d
  · simp [printable_mantissaText digits, printable_exponentText]

theorem printable_floatText (x : Binary64) : Printable (floatText x) := by
  unfold floatText
  extract_lets magnitude
  have digits : Printable magnitude := by
    simp only [magnitude]
    split
    · simp
    · simp
    · exact printable_decimalText _
  split
  · exact printable_cons.mpr ⟨by decide, digits⟩
  · exact digits

theorem printable_digitChar : ∀ n < 16, 0x20 ≤ (Nat.digitChar n).toNat := by decide

theorem printable_escapeChar (c : Char) : Printable (escapeChar c) := by
  rw [escapeChar]
  split_ifs with _ _ _ _ _ _ _ control
  iterate 7 · simp
  · have high := printable_digitChar (c.toNat / 16) (by omega)
    have low := printable_digitChar (c.toNat % 16) (Nat.mod_lt _ (by decide))
    simp [high, low]
  · simpa using control

theorem printable_stringText (s : String) : Printable (stringText s) := by
  have escaped : Printable (s.toList.flatMap escapeChar) := by
    intro c member
    obtain ⟨original, -, inside⟩ := List.mem_flatMap.mp member
    exact printable_escapeChar original c inside
  simp [stringText, escaped]

mutual

theorem printable_render (depth : Nat) : (j : Json) → Printable (render none depth j)
  | .null => by simp [render]
  | .bool true => by simp [render]
  | .bool false => by simp [render]
  | .unsigned n => printable_toDigits n.toNat
  | .signed n => printable_intText n.toInt
  | .float x => printable_floatText x
  | .string s => printable_stringText s
  | .array [] => by simp [render]
  | .array (x :: xs) => by
    have first := printable_render (depth + 1) x
    have others := printable_renderItems depth xs
    simp [render, gap, first, others]
  | .object [] => by simp [render]
  | .object ((k, v) :: ms) => by
    have first := printable_render (depth + 1) v
    have others := printable_renderMembers depth ms
    simp [render, gap, colon, printable_stringText, first, others]

theorem printable_renderItems (depth : Nat) : (xs : List Json) →
    Printable (renderItems none depth xs)
  | [] => by simp [renderItems, gap]
  | x :: xs => by
    have first := printable_render (depth + 1) x
    have others := printable_renderItems depth xs
    simp [renderItems, gap, first, others]

theorem printable_renderMembers (depth : Nat) : (ms : List (String × Json)) →
    Printable (renderMembers none depth ms)
  | [] => by simp [renderMembers, gap]
  | (k, v) :: ms => by
    have first := printable_render (depth + 1) v
    have others := printable_renderMembers depth ms
    simp [renderMembers, gap, colon, printable_stringText, first, others]

end

theorem newline_not_mem_compact (j : Json) : '\n' ∉ j.compact.toList := by
  rw [compact, String.toList_ofList]
  exact (printable_render 0 j).not_mem_newline

end WireRecords.Json
