import Mathlib.Data.List.Basic
import Mathlib.Data.List.Lex
import WireRecords.KeyMap

/-!
# Texts as bytes

Texts are ordered as their bytes in UTF-8 are, and a text starts with another one exactly if its
bytes do. Both follow from one fact on single characters: of two encodings, that of the smaller
character is the smaller one whatever follows either.
-/

namespace WireRecords.Text

theorem toList_loop (bs : ByteArray) (i : Nat) (acc : List UInt8) :
    ByteArray.toList.loop bs i acc = acc.reverse ++ bs.data.toList.drop i := by
  induction i, acc using ByteArray.toList.loop.induct bs with
  | case1 i acc below ih =>
    have here : bs.get! i = bs.data.toList[i] := by
      rw [ByteArray.get!]
      exact getElem!_pos bs.data i below
    rw [ByteArray.toList.loop, if_pos below, ih, List.reverse_cons, List.append_assoc, here,
      List.singleton_append, List.getElem_cons_drop]
  | case2 i acc behind =>
    have none : bs.data.toList.length ≤ i := Nat.le_of_not_lt behind
    rw [ByteArray.toList.loop, if_neg behind, List.drop_eq_nil_of_le none, List.append_nil]

theorem toList_eq_data (bs : ByteArray) : bs.toList = bs.data.toList := toList_loop bs 0 []

def bytes (s : String) : List UInt8 := s.toUTF8.toList

def encode (cs : List Char) : List UInt8 := cs.flatMap String.utf8EncodeChar

theorem bytes_eq (s : String) : bytes s = encode s.toList := by
  have encoded : s.toByteArray = (encode s.toList).toByteArray := by
    rw [encode, ← List.utf8Encode, ← String.toByteArray_ofList, String.ofList_toList]
  rw [bytes, toList_eq_data, String.toUTF8_eq_toByteArray, encoded, List.data_toByteArray]

theorem utf8EncodeChar_append_lt {c d : Char} (less : c < d) (x y : List UInt8) :
    String.utf8EncodeChar c ++ x < String.utf8EncodeChar d ++ y := by
  have values : c.val.toNat < d.val.toNat := less
  have bound : d.val.toNat < 0x110000 := by
    rcases d.valid with low | high
    · exact Nat.lt_trans low (by decide)
    · exact high.2
  simp only [String.utf8EncodeChar]
  generalize c.val.toNat = m at values ⊢
  generalize d.val.toNat = n at values bound ⊢
  split_ifs <;>
    simp only [List.cons_append, List.nil_append, List.cons_lt_cons_iff, UInt8.lt_iff_toNat_lt,
      ← UInt8.toNat_inj, UInt8.toNat_ofNat'] <;>
    simp (disch := omega) only [Nat.mod_eq_of_lt] <;> omega

theorem utf8EncodeChar_ne_nil (c : Char) : String.utf8EncodeChar c ≠ [] := by
  rw [String.utf8EncodeChar]
  split_ifs <;> simp

theorem encode_lt {cs ds : List Char} (less : cs < ds) : encode cs < encode ds := by
  induction cs generalizing ds with
  | nil =>
    cases ds with
    | nil => exact absurd less (List.not_lt_nil _)
    | cons d ds =>
      obtain ⟨b, bs, head⟩ := List.exists_cons_of_ne_nil (utf8EncodeChar_ne_nil d)
      rw [encode, encode, List.flatMap_cons, head]
      exact List.nil_lt_cons _ _
  | cons c cs ih =>
    cases ds with
    | nil => exact absurd less (List.not_lt_nil _)
    | cons d ds =>
      rw [encode, encode, List.flatMap_cons, List.flatMap_cons]
      rcases List.cons_lt_cons_iff.mp less with first | ⟨rfl, rest⟩
      · exact utf8EncodeChar_append_lt first _ _
      · exact List.append_left_lt (ih rest)

/-- The order of texts is that of their bytes. -/
theorem lt_iff_bytes_lt {s t : String} : s < t ↔ bytes s < bytes t := by
  rw [bytes_eq, bytes_eq]
  constructor
  · intro less
    exact encode_lt less
  · intro less
    by_contra other
    by_cases same : s = t
    · rw [same] at less
      exact List.lt_irrefl _ less
    · have greater := Entries.lt_of_not_lt_of_ne other same
      exact List.lt_asymm less (encode_lt greater)

theorem eq_of_utf8EncodeChar_append {c d : Char} {x y : List UInt8}
    (same : String.utf8EncodeChar c ++ x = String.utf8EncodeChar d ++ y) : c = d := by
  rcases Nat.lt_trichotomy c.val.toNat d.val.toNat with less | equal | greater
  · have lt := utf8EncodeChar_append_lt (c := c) (d := d) less x y
    rw [same] at lt
    exact absurd lt (List.lt_irrefl _)
  · exact Char.ext (UInt32.toNat_inj.mp equal)
  · have lt := utf8EncodeChar_append_lt (c := d) (d := c) greater y x
    rw [same] at lt
    exact absurd lt (List.lt_irrefl _)

theorem encode_prefix_iff {cs ds : List Char} : encode cs <+: encode ds ↔ cs <+: ds := by
  constructor
  · intro starts
    induction cs generalizing ds with
    | nil => exact List.nil_prefix
    | cons c cs ih =>
      obtain ⟨rest, whole⟩ := starts
      cases ds with
      | nil =>
        have nothing := (List.append_eq_nil_iff.mp whole).1
        exact absurd (List.append_eq_nil_iff.mp nothing).1 (utf8EncodeChar_ne_nil c)
      | cons d ds =>
        rw [encode, encode, List.flatMap_cons, List.flatMap_cons, List.append_assoc] at whole
        obtain rfl := eq_of_utf8EncodeChar_append whole
        have behind := List.append_cancel_left whole
        exact (List.prefix_cons_inj c).mpr (ih ⟨rest, behind⟩)
  · rintro ⟨rest, rfl⟩
    rw [encode, encode, List.flatMap_append]
    exact List.prefix_append _ _

theorem bytes_prefix_iff {s t : String} : bytes s <+: bytes t ↔ s.toList <+: t.toList := by
  rw [bytes_eq, bytes_eq, encode_prefix_iff]

end WireRecords.Text
