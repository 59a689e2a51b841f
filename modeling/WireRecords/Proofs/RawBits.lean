import WireRecords.Proofs.FieldValue
import WireRecords.Word

/-!
# The raw bits of a window of any length

A field of a layout may be of any length. Its raw bits are the number that its window denotes in
base 256, as far as 64 bits hold it, with the most significant byte first for the big byte order and
last for every other one. Windows of a word's width give that word, and a word is also what its
bytes give when each is shifted up to its place and laid over the others. A buffer that is shorter
than the layout is refused even if it holds the field's window.
-/

namespace WireRecords

theorem Endian.overlay_eq_decode (e : Endian) (bs : Bytes) : e.overlay bs = e.decode bs := rfl

namespace FieldDefinition

def bytesIn (d : FieldDefinition) (data : Bytes) : Bytes :=
  Bytes.window data d.window.start d.window.length

end FieldDefinition

namespace Layout

variable {l : Layout} {path : String} {d : FieldDefinition} {children : FieldList}

theorem toNat_readBits_big (bs : Bytes) :
    (readBits .big bs).toNat = Nat.ofDigits 256 (bs.reverse.map UInt8.toNat) % 2 ^ 64 := by
  rw [toNat_readBits, if_pos rfl, Endian.decode_big, Bytes.ofLittleEndian_eq_ofDigits]

theorem toNat_readBits_of_ne_big {order : ByteOrder} (h : order ≠ .big) (bs : Bytes) :
    (readBits order bs).toNat = Nat.ofDigits 256 (bs.map UInt8.toNat) % 2 ^ 64 := by
  rw [toNat_readBits, if_neg h, Endian.decode_little, Bytes.ofLittleEndian_eq_ofDigits]

theorem toNat_readBits_word (order : ByteOrder) {bs : Bytes} {width : Width}
    (h : bs.length = width.bytes) :
    (readBits order bs).toNat =
      if order = .big then Endian.big.decode bs else Endian.little.decode bs := by
  -- no bit of a word falls off
  have small (e : Endian) : e.decode bs < 2 ^ 64 := by
    calc e.decode bs
      _ < 256 ^ bs.length := e.decode_lt bs
      _ ≤ 2 ^ 64 := by
        rw [h]
        cases width <;> decide
  rw [toNat_readBits]
  split
  · exact Nat.mod_eq_of_lt (small .big)
  · exact Nat.mod_eq_of_lt (small .little)

/-- A buffer that is shorter than the layout is refused. From any other one a field is read as the
number that its window denotes, as far as 64 bits hold it, in the big byte order from the end and in
every other order from the front. A window of a word's width gives that word, whose bytes may just
as well be shifted to their places and laid over one another. -/
theorem value_of_window (found : l.find? path = some (d, children)) (scalar : d.isRecord = false)
    {data : Bytes} (inside : d.window.stop ≤ data.length) :
    (data.length < l.size.toNat → l.value path data =
      .error (.bufferSize "get_field_value" l.size.toNat data.length)) ∧
    (l.size.toNat ≤ data.length → ∃ word, l.value path data = .ok word ∧
      (d.order = .big →
        word.toNat = Nat.ofDigits 256 ((d.bytesIn data).reverse.map UInt8.toNat) % 2 ^ 64) ∧
      (d.order ≠ .big →
        word.toNat = Nat.ofDigits 256 ((d.bytesIn data).map UInt8.toNat) % 2 ^ 64) ∧
      ∀ width : Width, d.window.length = width.bytes →
        (d.order = .big → word.toNat = Word.read .big width data d.window.start) ∧
        (d.order ≠ .big → word.toNat = Word.read .little width data d.window.start) ∧
        ∀ e, Word.read e width data d.window.start = e.overlay (d.bytesIn data)) := by
  have value : l.value path data =
      if data.length < l.size.toNat then
        .error (.bufferSize "get_field_value" l.size.toNat data.length)
      else .ok (readBits d.order (d.bytesIn data)) := value_of_find? found scalar data
  constructor
  · intro short
    rw [value, if_pos short]
  · intro long
    refine ⟨_, value.trans (if_neg (Nat.not_lt.mpr long)), ?_, ?_, ?_⟩
    · intro big
      rw [big, toNat_readBits_big]
    · intro other
      exact toNat_readBits_of_ne_big other (d.bytesIn data)
    · intro width same
      have length : (d.bytesIn data).length = width.bytes :=
        (Bytes.length_window inside).trans same
      have word := toNat_readBits_word d.order length
      have read (e : Endian) :
          Word.read e width data d.window.start = e.decode (d.bytesIn data) := by
        rw [Word.read, FieldDefinition.bytesIn, same]
      refine ⟨?_, ?_, ?_⟩
      · intro big
        rw [word, if_pos big, read]
      · intro other
        rw [word, if_neg other, read]
      · intro e
        rw [read, e.overlay_eq_decode]

/-- Nine bytes, of which the first falls off, and three bytes of an unknown order. -/
theorem value_of_window_odd :
    let wide : FieldDefinition := ⟨"wide", 0, 9, .big, .uint⟩
    let three : FieldDefinition := ⟨"three", 8, 3, .unknown 7, .unknown 9⟩
    let l := ((named "odd").add wide .nil).add three .nil
    let data : Bytes := [1, 2, 3, 4, 5, 6, 7, 8, 9, 10, 11]
    l.find? "wide" = some (wide, .nil) ∧ wide.isRecord = false ∧ wide.window.stop ≤ data.length ∧
      l.find? "three" = some (three, .nil) ∧ three.isRecord = false ∧
      three.window.stop ≤ data.length ∧ l.size.toNat ≤ data.length ∧
      l.value "wide" data = .ok 0x0203040506070809 ∧ l.value "three" data = .ok 0x0b0a09 := by
  intro wide three l data
  have long : l.size.toNat ≤ data.length := by decide
  have foundWide : l.find? "wide" = some (wide, .nil) := by decide
  have foundThree : l.find? "three" = some (three, .nil) := by decide
  have insideWide : wide.window.stop ≤ data.length := by decide
  have insideThree : three.window.stop ≤ data.length := by decide
  obtain ⟨word, value, fromEnd, -, -⟩ := (value_of_window foundWide rfl insideWide).2 long
  obtain ⟨word', value', -, fromFront, -⟩ := (value_of_window foundThree rfl insideThree).2 long
  have known : word = 0x0203040506070809 := UInt64.toNat_inj.mp ((fromEnd rfl).trans (by decide))
  have known' : word' = 0x0b0a09 :=
    UInt64.toNat_inj.mp ((fromFront (by decide)).trans (by decide))
  subst known known'
  exact ⟨foundWide, rfl, insideWide, foundThree, rfl, insideThree, long, value, value'⟩

/-- One byte holds the whole first field, but the second field makes the layout longer. -/
theorem value_of_short_buffer :
    let a : FieldDefinition := ⟨"a", 0, 1, .unspecified, .uint⟩
    let b : FieldDefinition := ⟨"b", 1, 8, .big, .uint⟩
    let l := ((named "short").add a .nil).add b .nil
    l.find? "a" = some (a, .nil) ∧ a.isRecord = false ∧ a.window.stop ≤ [42].length ∧
      l.value "a" [42] = .error (.bufferSize "get_field_value" 9 1) ∧
      ¬ ∃ word, l.value "a" [42] = .ok word := by
  intro a b l
  have refused : l.value "a" [42] = .error (.bufferSize "get_field_value" 9 1) := by decide
  refine ⟨by decide, by decide, by decide, refused, ?_⟩
  rintro ⟨word, value⟩
  exact nomatch refused.symm.trans value

end Layout

end WireRecords
