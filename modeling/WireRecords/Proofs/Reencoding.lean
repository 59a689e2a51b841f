import WireRecords.Proofs.Files
import WireRecords.Proofs.JsonText
import WireRecords.Proofs.Outcomes
import WireRecords.Proofs.RoundTrip

/-!
# Decoding and encoding again

What `decode` prints can be given to `encode`. The view of a record has no floats, so its text is
read back; integers that are not negative come back in unsigned storage, where they say the same
values. So the record is the one that was decoded, and its message is the canonical form of the
bytes that it was decoded from.
-/

namespace WireRecords

theorem Json.integer?_normal (j : Json) : j.normal.integer? = j.integer? := by
  cases j with
  | signed n =>
    have high := n.toInt_lt
    rw [normal]
    split_ifs with negative
    · rfl
    · have small : n.toInt.natAbs < 2 ^ 64 := by omega
      rw [integer?, integer?, UInt64.toNat_ofNat', Nat.mod_eq_of_lt small,
        Int.natAbs_of_nonneg (Int.not_lt.mp negative)]
  | _ => rfl

namespace Scalar

variable {p : Primitive} {v : Scalar p}

theorem plain_toJson (v : Scalar p) : v.toJson.Plain := by
  rw [toJson]
  split_ifs
  · exact .bool _
  · exact .signed _
  · exact .unsigned _

theorem SaidBy.normal {j : Json} (h : v.SaidBy j) : v.SaidBy j.normal := by
  by_cases truth : p = .boolean
  · rw [SaidBy, if_pos truth] at h ⊢
    rw [h, Json.normal]
    all_goals (intros; contradiction)
  · rw [SaidBy, if_neg truth] at h ⊢
    rw [Json.integer?_normal, h]

end Scalar

namespace Schema

theorem plain_memberList (s : Schema) (index : Nat) (r : s.Record) :
    ∀ m ∈ s.memberList index r, m.2.Plain := by
  induction s generalizing index with
  | nil =>
    intro m member
    cases member
  | leaf name slot rest ih =>
    intro m member
    rcases List.mem_cons.mp member with rfl | member
    · exact r.1.plain_toJson
    · exact ih (index + 1) r.2 m member
  | group name inner rest ih_inner ih_rest =>
    intro m member
    rcases List.mem_cons.mp member with rfl | member
    · exact Json.plain_ofMembers (ih_inner 0 r.1)
    · exact ih_rest (index + 1) r.2 m member

theorem SaidBy.normal {s : Schema} {index : Nat} {v : s.Record} {ms : List (String × Json)}
    (h : s.SaidBy index v ms) : s.SaidBy index v (Json.normalMembers ms) := by
  induction s generalizing index ms with
  | nil => trivial
  | leaf name slot rest ih =>
    obtain ⟨⟨j, found, said⟩, tail⟩ := h
    refine ⟨⟨j.normal, ?_, said.normal⟩, ih tail⟩
    rw [Json.find?_normalMembers, found, Option.map_some]
  | group name inner rest ih_inner ih_rest =>
    obtain ⟨⟨inside, found, said⟩, tail⟩ := h
    refine ⟨⟨Json.normalMembers inside, ?_, ih_inner said⟩, ih_rest tail⟩
    rw [Json.find?_normalMembers, found, Option.map_some, Json.normal]

end Schema

namespace RecordType

variable {R : RecordType}

theorem saidBy_memberList (distinct : R.fields.DistinctKeys) (v : R.Value) :
    R.fields.SaidBy 0 v (Entries.insertAll [] (R.fields.memberList 0 v)) := by
  have outermost := Schema.DistinctFrom.of_distinctKeys distinct
  have keys : ((R.fields.memberList 0 v).map Prod.fst).Nodup := by
    rw [Schema.keys_memberList]
    exact outermost.outermost
  have read := Schema.ofMembers_of_find? outermost []
    (fun _ own => Entries.find?_insertAll_of_mem keys own) R.initial
  exact (Schema.ofMembers_eq_ok_iff [] R.initial).mp read

theorem parsed_toJson (distinct : R.fields.DistinctKeys) (v : R.Value) (indent : Nat) :
    ∃ document,
      Json.parseBytes? ((R.toJson v).pretty indent ++ "\n").toUTF8.toList = some document ∧
      R.ofJson document = .ok v := by
  have plain : (R.toJson v).Plain := Json.plain_ofMembers (R.fields.plain_memberList 0 v)
  have text : (R.toJson v).pretty indent ++ "\n" =
      String.ofList ((R.toJson v).render (some indent) 0 ++ ['\n']) := by
    rw [String.ofList_append]
    rfl
  refine ⟨(R.toJson v).normal, ?_, ?_⟩
  · rw [Json.parseBytes?_toUTF8, text, plain.parse?_render (some indent) rfl]
  · exact ofJson_eq_ok_iff.mpr ⟨_, rfl, (saidBy_memberList distinct v).normal⟩

end RecordType

namespace Inspect

theorem distinctKeys_of_mem {r : KnownRecord} (known : r ∈ catalogue) :
    r.type.fields.DistinctKeys := by
  have all : ∀ r ∈ catalogue, r.type.fields.DistinctKeys := by decide
  exact all r known

theorem named?_of_mem {r : KnownRecord} (known : r ∈ catalogue) : named? r.name = some r := by
  simp only [catalogue, List.mem_cons, List.not_mem_nil, or_false] at known
  rcases known with rfl | rfl | rfl <;> rfl

/-- No two record types are told by the same byte. -/
theorem startingWith?_of_mem {r : KnownRecord} {first : UInt8} (known : r ∈ catalogue)
    (tells : r.matchedBy first = true) : startingWith? first = some r := by
  have packet : KnownRecord.matchedBy { name := "packet", type := Samples.packet } first = false :=
    rfl
  simp only [catalogue, List.mem_cons, List.not_mem_nil, or_false] at known
  rcases known with rfl | rfl | rfl
  · cases packet.symm.trans tells
  · simp only [startingWith?, catalogue, List.find?_cons, packet, tells]
  · have seven : (first.toNat : Int) = 7 := of_decide_eq_true tells
    have integers : KnownRecord.matchedBy
        { name := "integers", type := Samples.integers,
          identifier := some ⟨KnownRecord.byteType, 42⟩ } first = false := by
      refine decide_eq_false fun same => ?_
      have fortyTwo : (first.toNat : Int) = 42 := same
      omega
    simp only [startingWith?, catalogue, List.find?_cons, packet, integers, tells]

namespace Context

def logWritten (c : Context) (count : Nat) (h : Log.Hub) : Log.Hub :=
  let path := c.setting "output"
  c.log .info s!"wrote {count} bytes to {path}" h

variable {c : Context}

theorem selects_of_mem {message : Bytes} {r : KnownRecord} (known : r ∈ catalogue)
    (selected : c.decoderName = r.name ∨
      c.decoderName = "auto" ∧ ∃ first ∈ message.head?, r.matchedBy first = true) :
    c.Selects message r := by
  rcases selected with name | ⟨auto, first, head, tells⟩
  · have proper : ∀ r ∈ catalogue, r.name ≠ "auto" := by decide
    refine .named ?_ (name ▸ named?_of_mem known)
    rw [name]
    exact proper r known
  · obtain ⟨rest, rfl⟩ := List.head?_eq_some_iff.mp head
    exact .first auto (startingWith?_of_mem known tells)

theorem run_decode {message : Bytes} {r : KnownRecord} {h : Log.Hub}
    (given : c.Given h.files message) (selected : c.Selects message r)
    (long : r.type.byteLen ≤ message.length) :
    (c.run "decode" h).exit = .ok ∧ (c.run "decode" h).out =
      (r.type.toJson (Schema.Record.ofBytes r.type.fields message)).pretty 2 ++ "\n" := by
  have decoded := fst_decode given selected
  rw [r.type.decode_eq long] at decoded
  have performed : (c.perform "decode" h).1 = .ok _ := decoded
  constructor
  · rw [exit_run, performed, Exit.ofResult]
  · rw [run]
    split
    · next same =>
      rw [same] at performed
      exact Except.ok.inj performed
    · next same =>
      rw [same] at performed
      cases performed

theorem run_encode {message : Bytes} {h : Log.Hub} (encoded : c.encoded? h.files = .ok message) :
    (c.settings.has "output" = false →
      (c.run "encode" h).exit = .ok ∧ (c.run "encode" h).out = Hex.render message ++ "\n" ∧
        (c.run "encode" h).hub = h) ∧
    ∀ files, c.settings.has "output" = true →
      h.files.write? (c.setting "output") message = some files →
        (c.run "encode" h).exit = .ok ∧ (c.run "encode" h).out = "" ∧
        (c.run "encode" h).hub = c.logWritten message.length { h with files } := by
  constructor
  · intro screen
    have performed : c.perform "encode" h = (.ok (Hex.render message ++ "\n"), h) := by
      simp only [perform, encode, encoded, screen, Bool.false_eq_true, if_false]
    simp only [run, performed, and_self]
  · intro files output written
    have performed : c.perform "encode" h =
        (.ok "", c.logWritten message.length { h with files }) := by
      simp only [perform, encode, encoded, output, if_true, written]
      rfl
    simp only [run, performed, and_self]

/-- What `decode` prints for a message, `encode` turns into the canonical form of the bytes that the
record takes up, on the screen or in the output file. -/
theorem decode_encode_round_trip (c : Context) (h : Log.Hub) {message : Bytes} {r : KnownRecord}
    (known : r ∈ catalogue) (long : r.type.byteLen ≤ message.length)
    (digits : c.settings.has "hex" = true ∧ Hex.parse (c.setting "hex") = some message)
    (selected : c.decoderName = r.name ∨
      c.decoderName = "auto" ∧ ∃ first ∈ message.head?, r.matchedBy first = true) :
    (c.run "decode" h).exit = .ok ∧
    ∀ (c' : Context) (h' : Log.Hub), c'.setting "record" = r.name → c'.settings.has "json" = true →
      h'.files.readAny? (c'.setting "json") = some (c.run "decode" h).out.toUTF8.toList →
      (c'.settings.has "output" = false →
        (c'.run "encode" h').exit = .ok ∧
        (c'.run "encode" h').out = Hex.render (r.type.canonical message) ++ "\n") ∧
      (c'.settings.has "output" = true → h'.files.openFile? (c'.setting "output") ≠ none →
        (c'.run "encode" h').exit = .ok ∧ (c'.run "encode" h').out = "" ∧
        ∃ files, (c'.run "encode" h').hub = c'.logWritten r.type.byteLen { h' with files } ∧
          h'.files.write? (c'.setting "output") (r.type.canonical message) = some files ∧
          (h'.files.Sound → h'.files.nodeOf? (c'.setting "output") ≠ some .device →
            files.read? (c'.setting "output") = some (r.type.canonical message))) := by
  have given : c.Given h.files message := by
    rw [Given, if_pos digits.1]
    exact digits.2
  obtain ⟨done, printed⟩ := run_decode given (selects_of_mem known selected) long
  refine ⟨done, fun c' h' record json read => ?_⟩
  rw [printed] at read
  obtain ⟨document, parsed, converted⟩ := RecordType.parsed_toJson (distinctKeys_of_mem known)
    (Schema.Record.ofBytes r.type.fields message) 2
  have encoded : c'.encoded? h'.files = .ok (r.type.canonical message) := by
    rw [← RecordType.toBytes_ofBytes long]
    exact encoded?_of_ofJson (record ▸ named?_of_mem known) json read parsed converted
  obtain ⟨screen, file⟩ := run_encode encoded
  constructor
  · intro noOutput
    exact ⟨(screen noOutput).1, (screen noOutput).2.1⟩
  · intro output writable
    obtain ⟨opened, open_eq⟩ := Option.ne_none_iff_exists'.mp writable
    have short : (r.type.canonical message).length < BufferedFile.capacity := by
      rw [RecordType.length_canonical long]
      exact byteLen_lt_capacity known
    have written : h'.files.write? (c'.setting "output") (r.type.canonical message) = some _ :=
      (FileSystem.write?_of_short _ _ short).trans (by rw [open_eq, Option.map_some])
    obtain ⟨ended, silent, left⟩ := file _ output written
    rw [RecordType.length_canonical long] at left
    exact ⟨ended, silent, _, left, written, fun sound noDevice =>
      FileSystem.read?_write? sound noDevice written⟩

/-- A frame told by its first byte, with sign bits set, a truth value of 2 and a byte to spare. -/
theorem decode_encode_round_trip_frame :
    let settings :=
      Settings.empty.set "hex" (.text "07:00 01ff EFbeadDE 80:02:03:ff ff 0 2ff fe 99")
    let message : Bytes :=
      [7, 0, 1, 255, 239, 190, 173, 222, 128, 2, 3, 255, 255, 1, 255, 254]
    let c : Context := { settings, logger := 0 }
    let named := (Settings.empty.set "record" (.text "frame")).set "json" (.text "view.json")
    let c' : Context := { settings := named, logger := 0 }
    let c'' : Context := { settings := named.set "output" (.text "message"), logger := 0 }
    let h : Log.Hub := { files := { current := [] } }
    let view := (c.run "decode" h).out.toUTF8.toList
    let h' : Log.Hub :=
      { files := { nodes := [(["view.json"], .file 0)], contents := [view], current := [] } }
    (c.run "decode" h).exit = .ok ∧
      (c'.run "encode" h').out = "07 00 01 ff ef be ad de 80 02 03 ff ff 01 ff fe\n" ∧
      (c''.run "encode" h').exit = .ok ∧
      ∃ files, h'.files.write? "message" message = some files ∧
        files.read? "message" = some message := by
  intro settings message c named c' c'' h view h'
  let r : KnownRecord :=
    { name := "frame", type := Samples.frame, identifier := some ⟨KnownRecord.byteType, 7⟩ }
  let given : Bytes := [7, 0, 1, 255, 239, 190, 173, 222, 128, 2, 3, 255, 255, 2, 255, 254, 153]
  have known : r ∈ catalogue := by simp [catalogue, r]
  have long : r.type.byteLen ≤ given.length := by decide
  have digits : c.settings.has "hex" = true ∧ Hex.parse (c.setting "hex") = some given := by decide
  have canonical : r.type.canonical given = message := by decide
  obtain ⟨done, again⟩ := decode_encode_round_trip c h known long digits
    (.inr ⟨by decide, 7, rfl, by decide⟩)
  have read : h'.files.readAny? "view.json" = some view := rfl
  have sound : h'.files.Sound := FileSystem.sound_of_nodes (by simp [h'])
  obtain ⟨screen, -⟩ := again c' h' (by decide) (by decide) read
  obtain ⟨-, file⟩ := again c'' h' (by decide) (by decide) read
  obtain ⟨ended, -, files, -, written, back⟩ := file (by decide) (by decide)
  rw [canonical] at written back
  refine ⟨done, ?_, ended, files, written, back sound (by decide)⟩
  rw [(screen (by decide)).2, canonical]
  decide

end Context

end Inspect

end WireRecords
