import WireRecords.Inspect.Command
import WireRecords.Proofs.Conformance

/-!
# Outcomes of the commands

A command ends in one of three ways: it was misused, it failed, or it has done its work. There is
one way out beside them: a directory can be opened as a document, and the exception that the first
attempt to read it throws is none that a command expects. Which way it is depends on the settings
and the files alone. Only a command that has done its work prints an output, and `encode` opens its
output file only when it knows the message to write.

A message is short enough to wait in the output file until that is closed. So whether the file takes
its bytes is never asked: a device without room for them is written to with success.
-/

namespace WireRecords.Inspect

def Exit.ofResult : Except Refusal String → Exit
  | .ok _ => .ok
  | .error refusal => refusal.exit

theorem byteLen_lt_capacity {r : KnownRecord} (known : r ∈ catalogue) :
    r.type.byteLen < BufferedFile.capacity := by
  have all : ∀ r ∈ catalogue, r.type.byteLen < BufferedFile.capacity := by decide
  exact all r known

namespace Context

/-- The bytes that the settings give as a message: hexadecimal digits if there are some, a file
otherwise. -/
def Given (c : Context) (files : FileSystem) (message : Bytes) : Prop :=
  if c.settings.has "hex" then Hex.parse (c.setting "hex") = some message
  else c.settings.has "input" = true ∧ files.read? (c.setting "input") = some message

def decoderName (c : Context) : String := c.settings.getString "record" "auto"

/-- The record type that a message is decoded by: the one that its first byte tells, or the one that
the settings name. -/
inductive Selects (c : Context) : Bytes → KnownRecord → Prop where
  | first {first : UInt8} {rest : Bytes} {r : KnownRecord} (auto : c.decoderName = "auto")
      (starts : startingWith? first = some r) : Selects c (first :: rest) r
  | named {message : Bytes} {r : KnownRecord} (name : c.decoderName ≠ "auto")
      (known : named? c.decoderName = some r) : Selects c message r

/-- Nothing or no digits are given to decode, or the record type is unknown. -/
def DecodeMisused (c : Context) (files : FileSystem) : Prop :=
  (c.settings.has "hex" = false ∧ c.settings.has "input" = false) ∨
  (c.settings.has "hex" = true ∧ Hex.parse (c.setting "hex") = none) ∨
  ∃ message, c.Given files message ∧ c.decoderName ≠ "auto" ∧ named? c.decoderName = none

/-- The message cannot be read, tells no record type, or is too short for the type it is decoded
by. -/
def DecodeFails (c : Context) (files : FileSystem) : Prop :=
  (c.settings.has "hex" = false ∧ c.settings.has "input" = true ∧
    files.read? (c.setting "input") = none) ∨
  (c.decoderName = "auto" ∧ c.Given files []) ∨
  (c.decoderName = "auto" ∧
    ∃ first rest, c.Given files (first :: rest) ∧ startingWith? first = none) ∨
  ∃ message r, c.Given files message ∧ c.Selects message r ∧ message.length < r.type.byteLen

def EncodeMisused (c : Context) : Prop :=
  named? (c.setting "record") = none ∨ c.settings.has "json" = false

/-- The settings name a record type and a file whose document conforms to it. -/
def Convertible (c : Context) (files : FileSystem) : Prop :=
  ∃ r content document, named? (c.setting "record") = some r ∧ c.settings.has "json" = true ∧
    files.readAny? (c.setting "json") = some content ∧ Json.parseBytes? content = some document ∧
    r.type.fields.Conforms document

/-- The document can be opened and not read. -/
def EncodeBreaks (c : Context) (files : FileSystem) : Prop :=
  files.reading (c.setting "json") = .broken

/-- The document cannot be opened, is no JSON, or does not conform to the record type, or the output
file cannot be opened. -/
def EncodeFails (c : Context) (files : FileSystem) : Prop :=
  files.reading (c.setting "json") = .refused ∨
  (∃ content, files.readAny? (c.setting "json") = some content ∧
    Json.parseBytes? content = none) ∨
  (∃ r content document, named? (c.setting "record") = some r ∧
    files.readAny? (c.setting "json") = some content ∧
    Json.parseBytes? content = some document ∧ ¬ r.type.fields.Conforms document) ∨
  (c.settings.has "output" = true ∧ files.openFile? (c.setting "output") = none)

/-- The command is unknown or lacks a usable setting. -/
def Misused (c : Context) (files : FileSystem) (command : String) : Prop :=
  match command with
  | "layout" => named? (c.setting "record") = none
  | "decode" => c.DecodeMisused files
  | "encode" => c.EncodeMisused
  | _ => True

def Breaks (c : Context) (files : FileSystem) (command : String) : Prop :=
  match command with
  | "encode" => c.EncodeBreaks files
  | _ => False

def Fails (c : Context) (files : FileSystem) (command : String) : Prop :=
  match command with
  | "decode" => c.DecodeFails files
  | "encode" => c.EncodeFails files
  | _ => False

end Context

/-- An outcome that settles whether a command was misused, if not whether an exception left it, and
if not that either whether it failed. -/
structure Exit.Tells (e : Exit) (misused breaks fails : Prop) : Prop where
  usage : e = .usage ↔ misused
  aborted : e = .aborted ↔ ¬ misused ∧ breaks
  failure : e = .failure ↔ ¬ misused ∧ ¬ breaks ∧ fails

namespace Exit.Tells

variable {misused breaks fails : Prop}

theorem of_misused (h : misused) : Exit.usage.Tells misused breaks fails :=
  ⟨by simp [h], by simp [h], by simp [h]⟩

theorem of_breaks (h : ¬ misused) (hb : breaks) : Exit.aborted.Tells misused breaks fails :=
  ⟨by simp [h], by simp [h, hb], by simp [hb]⟩

theorem of_fails (h : ¬ misused) (hb : ¬ breaks) (hf : fails) :
    Exit.failure.Tells misused breaks fails :=
  ⟨by simp [h], by simp [hb], by simp [h, hb, hf]⟩

theorem of_done (h : ¬ misused) (hb : ¬ breaks) (hf : ¬ fails) :
    Exit.ok.Tells misused breaks fails :=
  ⟨by simp [h], by simp [hb], by simp [hf]⟩

end Exit.Tells

namespace Context

variable {c : Context} {files : FileSystem}

theorem Given.unique {message message' : Bytes} (h : c.Given files message)
    (h' : c.Given files message') : message = message' := by
  rw [Given] at h h'
  split_ifs at h h'
  · exact Option.some.inj (h.symm.trans h')
  · exact Option.some.inj (h.2.symm.trans h'.2)

theorem Selects.unique {message : Bytes} {r r' : KnownRecord} (h : c.Selects message r)
    (h' : c.Selects message r') : r = r' := by
  cases h with
  | first auto starts =>
    cases h' with
    | first _ starts' => exact Option.some.inj (starts.symm.trans starts')
    | named name _ => exact absurd auto name
  | named name known =>
    cases h' with
    | first auto _ => exact absurd auto name
    | named _ known' => exact Option.some.inj (known.symm.trans known')

theorem message?_eq_ok_iff {message : Bytes} :
    c.message? files = .ok message ↔ c.Given files message := by
  rw [message?, Given]
  split_ifs with digits file
  · cases Hex.parse (c.setting "hex") <;> simp
  · cases files.read? (c.setting "input") <;> simp [file]
  · simp [file]

theorem decoder?_of_selects {message : Bytes} {r : KnownRecord} (h : c.Selects message r) :
    ∃ byFirst, c.decoder? message = .ok (r, byFirst) := by
  cases h with
  | first auto starts =>
    rw [decoderName] at auto
    exact ⟨true, by simp [decoder?, auto, starts]⟩
  | named name known =>
    rw [decoderName] at name known
    exact ⟨false, by simp [decoder?, name, known]⟩

theorem fst_reporting {α : Type} (h : Log.Hub) (result : Except CodecError α) :
    (h.reporting result).1 = result := by
  cases result <;> rfl

theorem fst_decode {message : Bytes} {r : KnownRecord} {h : Log.Hub}
    (given : c.Given h.files message) (selected : c.Selects message r) :
    (c.decode h).1 =
      match r.type.decode message with
      | .error e => .error (.codec e)
      | .ok v => .ok ((r.type.toJson v).pretty 2 ++ "\n") := by
  obtain ⟨byFirst, decoder⟩ := decoder?_of_selects selected
  simp only [decode, message?_eq_ok_iff.mpr given, decoder]
  generalize logTrailing _ _ _ _ = logged
  have result := fst_reporting logged (r.type.decode message)
  rw [Log.Hub.decode]
  cases reported : logged.reporting (r.type.decode message) with
  | mk outcome hub =>
    rw [reported] at result
    rw [← result]
    cases outcome <;> rfl

theorem not_decodeMisused {message : Bytes} (given : c.Given files message)
    (known : c.decoderName ≠ "auto" → named? c.decoderName ≠ none) : ¬ c.DecodeMisused files := by
  rw [Given] at given
  rintro (⟨noHex, noInput⟩ | ⟨digits, malformed⟩ | ⟨_, _, name, unknown⟩)
  · simp [noHex, noInput] at given
  · simp [digits, malformed] at given
  · exact known name unknown

theorem decodeFails_iff {message : Bytes} {r : KnownRecord} (given : c.Given files message)
    (selected : c.Selects message r) : c.DecodeFails files ↔ message.length < r.type.byteLen := by
  constructor
  · rintro (⟨noHex, _, unreadable⟩ | ⟨auto, none⟩ | ⟨auto, first, rest, other, unmatched⟩ |
      ⟨message', r', given', selected', short⟩)
    · simp [Given, noHex, unreadable] at given
    · cases given.unique none
      cases selected with
      | named name _ => exact absurd auto name
    · cases given.unique other
      cases selected with
      | first _ starts => exact absurd (starts.symm.trans unmatched) (by simp)
      | named name _ => exact absurd auto name
    · cases given.unique given'
      cases selected.unique selected'
      exact short
  · intro short
    exact .inr (.inr (.inr ⟨message, r, given, selected, short⟩))

theorem tells_message? {refusal : Refusal} (h : c.message? files = .error refusal) :
    refusal.exit.Tells (c.DecodeMisused files) False (c.DecodeFails files) := by
  rw [message?] at h
  split_ifs at h with digits file
  · split at h
    · cases h
    · next malformed =>
      cases h
      exact .of_misused (.inr (.inl ⟨digits, malformed⟩))
  · split at h
    · cases h
    · next unreadable =>
      cases h
      have noHex : c.settings.has "hex" = false := Bool.eq_false_iff.mpr digits
      refine .of_fails ?_ id (.inl ⟨noHex, file, unreadable⟩)
      rintro (⟨_, noInput⟩ | ⟨digits', _⟩ | ⟨message, given, _⟩)
      · simp [file] at noInput
      · exact digits digits'
      · simp [Given, noHex, unreadable] at given
  · cases h
    exact .of_misused (.inl ⟨Bool.eq_false_iff.mpr digits, Bool.eq_false_iff.mpr file⟩)

theorem tells_decoder? {message : Bytes} {refusal : Refusal} (given : c.Given files message)
    (h : c.decoder? message = .error refusal) :
    refusal.exit.Tells (c.DecodeMisused files) False (c.DecodeFails files) := by
  have auto_ok (auto : c.decoderName = "auto") : ¬ c.DecodeMisused files :=
    not_decodeMisused given fun name => absurd auto name
  change (if c.decoderName = "auto" then _ else _) = _ at h
  split_ifs at h with auto
  · cases message with
    | nil =>
      cases h
      exact .of_fails (auto_ok auto) id (.inr (.inl ⟨auto, given⟩))
    | cons first rest =>
      simp only at h
      split at h
      · cases h
      · next unmatched =>
        cases h
        exact .of_fails (auto_ok auto) id
          (.inr (.inr (.inl ⟨auto, first, rest, given, unmatched⟩)))
  · split at h
    · cases h
    · next unknown =>
      cases h
      exact .of_misused (.inr (.inr ⟨message, given, auto, unknown⟩))

theorem selects_of_decoder? {message : Bytes} {r : KnownRecord} {byFirst : Bool}
    (h : c.decoder? message = .ok (r, byFirst)) : c.Selects message r := by
  change (if c.decoderName = "auto" then _ else _) = _ at h
  split_ifs at h with auto
  · cases message with
    | nil => cases h
    | cons first rest =>
      simp only at h
      split at h
      · next starts =>
        cases h
        exact .first auto starts
      · cases h
  · split at h
    · next known =>
      cases h
      exact .named auto known
    · cases h

theorem tells_decode (c : Context) (h : Log.Hub) :
    (Exit.ofResult (c.decode h).1).Tells (c.DecodeMisused h.files) False
      (c.DecodeFails h.files) := by
  cases found : c.message? h.files with
  | error refusal =>
    simp only [decode, found]
    exact tells_message? found
  | ok message =>
    have given := message?_eq_ok_iff.mp found
    cases decoder : c.decoder? message with
    | error refusal =>
      simp only [decode, found, decoder]
      exact tells_decoder? given decoder
    | ok selection =>
      obtain ⟨r, byFirst⟩ := selection
      have selected := selects_of_decoder? decoder
      have used : ¬ c.DecodeMisused h.files := by
        apply not_decodeMisused given
        intro name unknown
        cases selected with
        | first auto _ => exact name auto
        | named _ known => exact absurd (known.symm.trans unknown) (by simp)
      rw [fst_decode given selected, RecordType.decode]
      split_ifs with short
      · exact .of_fails used id ((decodeFails_iff given selected).mpr short)
      · exact .of_done used id fun fails => short ((decodeFails_iff given selected).mp fails)

theorem readAny?_eq_some_iff {path : String} {content : Bytes} :
    files.readAny? path = some content ↔ files.reading path = .bytes content := by
  rw [FileSystem.readAny?]
  cases files.reading path <;> simp

theorem encoded?_eq (c : Context) (files : FileSystem) :
    c.encoded? files =
      match named? (c.setting "record"), c.settings.has "json" with
      | none, _ => .error .misused
      | some _, false => .error .misused
      | some r, true =>
        match files.reading (c.setting "json") with
        | .refused => .error .unreadableFile
        | .broken => .error .brokenFile
        | .bytes content =>
          match Json.parseBytes? content with
          | none => .error .malformedJson
          | some document =>
            match r.type.ofJson document with
            | .error e => .error (.codec e)
            | .ok v => .ok (r.type.toBytes v) := by
  rw [encoded?, record?]
  cases named? (c.setting "record") with
  | none => rfl
  | some r => cases c.settings.has "json" <;> rfl

theorem encoded?_of_ofJson {r : KnownRecord} {content : Bytes} {document : Json}
    {v : r.type.Value} (record : named? (c.setting "record") = some r)
    (named : c.settings.has "json" = true)
    (read : files.readAny? (c.setting "json") = some content)
    (parsed : Json.parseBytes? content = some document)
    (converted : r.type.ofJson document = .ok v) :
    c.encoded? files = .ok (r.type.toBytes v) := by
  rw [encoded?_eq]
  simp only [record, named, readAny?_eq_some_iff.mp read, parsed, converted]

theorem exists_ofJson_of_encoded? {message : Bytes} (h : c.encoded? files = .ok message) :
    ∃ r content document v, named? (c.setting "record") = some r ∧
      c.settings.has "json" = true ∧ files.readAny? (c.setting "json") = some content ∧
      Json.parseBytes? content = some document ∧ r.type.ofJson document = .ok v ∧
      message = r.type.toBytes v := by
  rw [encoded?_eq] at h
  split at h
  · cases h
  · cases h
  · next r record named =>
    split at h
    · cases h
    · cases h
    · next content read =>
      split at h
      · cases h
      · next document parsed =>
        split at h
        · cases h
        · next v converted =>
          cases h
          exact ⟨r, content, document, v, record, named, readAny?_eq_some_iff.mpr read, parsed,
            converted, rfl⟩

theorem exists_encoded?_iff :
    (∃ message, c.encoded? files = .ok message) ↔ c.Convertible files := by
  constructor
  · rintro ⟨message, h⟩
    obtain ⟨r, content, document, v, record, named, read, parsed, converted, -⟩ :=
      exists_ofJson_of_encoded? h
    exact ⟨r, content, document, record, named, read, parsed,
      RecordType.exists_ofJson_iff.mp ⟨v, converted⟩⟩
  · rintro ⟨r, content, document, record, named, read, parsed, conforms⟩
    obtain ⟨v, converted⟩ := RecordType.exists_ofJson_iff.mpr conforms
    exact ⟨_, encoded?_of_ofJson record named read parsed converted⟩

theorem length_encoded? {message : Bytes} (h : c.encoded? files = .ok message) :
    message.length < BufferedFile.capacity := by
  obtain ⟨r, _, _, v, record, -, -, -, -, rfl⟩ := exists_ofJson_of_encoded? h
  rw [RecordType.length_toBytes]
  exact byteLen_lt_capacity (List.mem_of_find?_eq_some record)

theorem tells_encoded? {refusal : Refusal} (h : c.encoded? files = .error refusal) :
    refusal.exit.Tells c.EncodeMisused (c.EncodeBreaks files) (c.EncodeFails files) := by
  rw [encoded?_eq] at h
  split at h
  · next unknown =>
    cases h
    exact .of_misused (.inl unknown)
  · next absent =>
    cases h
    exact .of_misused (.inr absent)
  · next r record named =>
    have used : ¬ c.EncodeMisused := by
      rintro (unknown | absent)
      · exact absurd (record.symm.trans unknown) (by simp)
      · exact absurd (named.symm.trans absent) (by decide)
    split at h
    · next unreadable =>
      cases h
      exact .of_fails used (by simp [EncodeBreaks, unreadable]) (.inl unreadable)
    · next broken =>
      cases h
      exact .of_breaks used broken
    · next content read =>
      have whole : ¬ c.EncodeBreaks files := by simp [EncodeBreaks, read]
      have read' := readAny?_eq_some_iff.mpr read
      split at h
      · next malformed =>
        cases h
        exact .of_fails used whole (.inr (.inl ⟨content, read', malformed⟩))
      · next document parsed =>
        split at h
        · next e refused =>
          cases h
          refine .of_fails used whole
            (.inr (.inr (.inl ⟨r, content, document, record, read', parsed, ?_⟩)))
          intro conforms
          obtain ⟨v, converted⟩ := RecordType.exists_ofJson_iff.mpr conforms
          exact absurd (refused.symm.trans converted) (by simp)
        · cases h

theorem not_encodeMisused (h : c.Convertible files) : ¬ c.EncodeMisused := by
  obtain ⟨r, _, _, record, named, _⟩ := h
  rintro (unknown | absent)
  · exact absurd (record.symm.trans unknown) (by simp)
  · exact absurd (named.symm.trans absent) (by decide)

theorem not_encodeBreaks (h : c.Convertible files) : ¬ c.EncodeBreaks files := by
  obtain ⟨_, _, _, _, _, read, _⟩ := h
  simp [EncodeBreaks, readAny?_eq_some_iff.mp read]

theorem encodeFails_iff (h : c.Convertible files) :
    c.EncodeFails files ↔
      c.settings.has "output" = true ∧ files.openFile? (c.setting "output") = none := by
  obtain ⟨r, content, document, record, named, read, parsed, conforms⟩ := h
  constructor
  · rintro (unreadable | ⟨content', read', malformed⟩ |
      ⟨r', content', document', record', read', parsed', refused⟩ | unwritable)
    · exact absurd ((readAny?_eq_some_iff.mp read).symm.trans unreadable) (by simp)
    · cases read.symm.trans read'
      exact absurd (parsed.symm.trans malformed) (by simp)
    · cases read.symm.trans read'
      cases record.symm.trans record'
      cases parsed.symm.trans parsed'
      exact absurd conforms refused
    · exact unwritable
  · intro unwritable
    exact .inr (.inr (.inr unwritable))

theorem openFile?_of_refuses {path : String} (h : files.refuses path = true) :
    files.openFile? path ≠ none := by
  rw [FileSystem.refuses] at h
  cases located : files.locate? path with
  | none => simp [located] at h
  | some place =>
    rw [located, Option.any_some, Bool.and_eq_true] at h
    have stands : files.nodeAt place = some .device := of_decide_eq_true h.1
    simp [FileSystem.openFile?, located, stands]

theorem ofResult_encode {h : Log.Hub} (convertible : c.Convertible h.files)
    (output : c.settings.has "output" = true)
    (opened : h.files.openFile? (c.setting "output") ≠ none) :
    Exit.ofResult (c.encode h).1 = .ok := by
  obtain ⟨message, found⟩ := exists_encoded?_iff.mpr convertible
  obtain ⟨file, opens⟩ := Option.ne_none_iff_exists'.mp opened
  simp only [encode, found, output, if_true, opens, Option.map_some,
    FileSystem.write?_of_short _ _ (length_encoded? found)]
  rfl

theorem tells_encode (c : Context) (h : Log.Hub) :
    (Exit.ofResult (c.encode h).1).Tells c.EncodeMisused (c.EncodeBreaks h.files)
      (c.EncodeFails h.files) := by
  cases found : c.encoded? h.files with
  | error refusal =>
    simp only [encode, found]
    exact tells_encoded? found
  | ok message =>
    have convertible := exists_encoded?_iff.mp ⟨message, found⟩
    have used := not_encodeMisused convertible
    have whole := not_encodeBreaks convertible
    simp only [encode, found, FileSystem.write?_of_short _ _ (length_encoded? found)]
    split_ifs with output
    · cases opened : h.files.openFile? (c.setting "output") with
      | none => exact .of_fails used whole ((encodeFails_iff convertible).mpr ⟨output, opened⟩)
      | some file =>
        refine .of_done used whole fun fails => ?_
        have unwritable := ((encodeFails_iff convertible).mp fails).2
        exact absurd (opened.symm.trans unwritable) (by simp)
    · exact .of_done used whole fun fails => output ((encodeFails_iff convertible).mp fails).1

theorem tells_layout (c : Context) :
    (Exit.ofResult c.layout).Tells (named? (c.setting "record") = none) False False := by
  simp only [layout, record?]
  cases record : named? (c.setting "record") with
  | none => exact .of_misused rfl
  | some r =>
    have used : ¬ some r = none := by simp
    by_cases json : c.settings.getString "format" "text" = "json"
    · simp only [json]
      exact .of_done used id id
    · simp only [json]
      exact .of_done used id id

theorem tells_perform (c : Context) (command : String) (h : Log.Hub) :
    (Exit.ofResult (c.perform command h).1).Tells (c.Misused h.files command)
      (c.Breaks h.files command) (c.Fails h.files command) := by
  by_cases layout : command = "layout"
  · subst layout
    exact c.tells_layout
  by_cases decode : command = "decode"
  · subst decode
    exact c.tells_decode h
  by_cases encode : command = "encode"
  · subst encode
    exact c.tells_encode h
  -- any other name is no command
  have performed : c.perform command h = (.error (.unknownCommand command), h) := by
    unfold perform
    split <;> first | contradiction | rfl
  have misused : c.Misused h.files command := by
    unfold Misused
    split <;> first | contradiction | trivial
  rw [performed]
  exact .of_misused misused

theorem exit_run (c : Context) (command : String) (h : Log.Hub) :
    (c.run command h).exit = Exit.ofResult (c.perform command h).1 := by
  rw [run]
  split
  · next performed => rw [performed, Exit.ofResult]
  · next performed => rw [performed, Exit.ofResult]

theorem out_run {command : String} {h : Log.Hub} (refused : (c.run command h).exit ≠ .ok) :
    (c.run command h).out = "" := by
  rw [run] at refused ⊢
  split at refused
  · exact absurd rfl refused
  · rfl

theorem hub_run_encode {h : Log.Hub} (inconvertible : ¬ c.Convertible h.files) :
    (c.run "encode" h).hub = h ∨
      ∃ e : CodecError, (c.run "encode" h).hub = c.log .error e.message h := by
  have unwritten : ∀ message, c.encoded? h.files ≠ .ok message :=
    fun message found => inconvertible (exists_encoded?_iff.mp ⟨message, found⟩)
  cases found : c.encoded? h.files with
  | ok message => exact absurd found (unwritten message)
  | error refusal =>
    have performed : c.perform "encode" h = (.error refusal, h) := by
      simp only [perform, encode, found]
    simp only [run, performed]
    cases refusal with
    | codec e => exact .inr ⟨e, rfl⟩
    | _ => exact .inl rfl

/-- A command ends with 2 exactly if it was misused, with 1 if it was not and failed, and with 0
otherwise, unless an exception leaves it. If it does not end with 0 it prints no output, and without
a document that can be converted `encode` leaves everything as it was, the log apart. An output file
that takes no bytes makes no difference. -/
theorem run_classified (c : Context) (command : String) (h : Log.Hub) :
    ((c.run command h).exit.code = 2 ↔ c.Misused h.files command) ∧
    ((c.run command h).exit = .aborted ↔
      ¬ c.Misused h.files command ∧ c.Breaks h.files command) ∧
    ((c.run command h).exit.code = 1 ↔
      ¬ c.Misused h.files command ∧ ¬ c.Breaks h.files command ∧ c.Fails h.files command) ∧
    ((c.run command h).exit.code = 0 ↔
      ¬ c.Misused h.files command ∧ ¬ c.Breaks h.files command ∧ ¬ c.Fails h.files command) ∧
    ((c.run command h).exit.code ≠ 0 → (c.run command h).out = "") ∧
    (¬ c.Convertible h.files → (c.run "encode" h).hub = h ∨
      ∃ e : CodecError, (c.run "encode" h).hub = c.log .error e.message h) ∧
    (c.Convertible h.files → c.settings.has "output" = true →
      h.files.refuses (c.setting "output") = true → (c.run "encode" h).exit.code = 0) := by
  obtain ⟨usage, aborted, failure⟩ := c.tells_perform command h
  rw [← exit_run] at usage aborted failure
  refine ⟨?_, aborted, ?_, ?_, ?_, hub_run_encode, ?_⟩
  · rw [← usage]
    cases (c.run command h).exit <;> simp [Exit.code]
  · rw [← failure]
    cases (c.run command h).exit <;> simp [Exit.code]
  · -- the way to end that is left
    cases ended : (c.run command h).exit <;> simp_all [Exit.code]
  · intro nonzero
    apply out_run
    intro ended
    rw [ended] at nonzero
    exact nonzero rfl
  · intro convertible output refuses
    have done : Exit.ofResult (c.perform "encode" h).1 = .ok :=
      ofResult_encode convertible output (openFile?_of_refuses refuses)
    rw [exit_run, done]
    rfl

/-- With an unknown record type, a file that cannot be read is met first, and so are digits that are
none. -/
theorem run_classified_order :
    let named := Settings.empty.set "record" (.text "nothing")
    let unreadable : Context := { settings := named.set "input" (.text "missing"), logger := 0 }
    let malformed : Context := { settings := named.set "hex" (.text "0g"), logger := 0 }
    let h : Log.Hub := { files := { current := [] } }
    (unreadable.run "decode" h).exit.code = 1 ∧ (unreadable.run "decode" h).out = "" ∧
      (malformed.run "decode" h).exit.code = 2 ∧ (malformed.run "decode" h).out = "" := by
  intro named unreadable malformed h
  have noHex : unreadable.settings.has "hex" = false := by decide
  have present : unreadable.settings.has "input" = true := by decide
  have missing : h.files.read? (unreadable.setting "input") = none := by decide
  have fails : unreadable.DecodeFails h.files := .inl ⟨noHex, present, missing⟩
  have used : ¬ unreadable.DecodeMisused h.files := by
    rintro (⟨_, absent⟩ | ⟨digits, _⟩ | ⟨message, given, _⟩)
    · exact absurd (present.symm.trans absent) (by decide)
    · exact absurd (digits.symm.trans noHex) (by decide)
    · simp [Given, noHex, missing] at given
  have misused : malformed.DecodeMisused h.files := .inr (.inl ⟨by decide, by decide⟩)
  obtain ⟨-, -, failure, -, silent, -⟩ := run_classified unreadable "decode" h
  obtain ⟨usage, -, -, -, silent', -⟩ := run_classified malformed "decode" h
  have one := failure.mpr ⟨used, id, fails⟩
  have two := usage.mpr misused
  exact ⟨one, silent (by rw [one]; decide), two, silent' (by rw [two]; decide)⟩

/-- A document that cannot be read is no failure but an exception if it is a directory, and an
output file that cannot be written is no failure if it is a device without room. -/
theorem unreadable_directory_and_full_device :
    let settings := (Settings.empty.set "record" (.text "packet")).set "json" (.text "view")
    let screen : Context := { settings, logger := 0 }
    let file : Context := { settings := settings.set "output" (.text "/full"), logger := 0 }
    let folder : Log.Hub := { files := { nodes := [(["view"], .directory)], current := [] } }
    let h : Log.Hub :=
      { files :=
          { nodes := [(["view"], .file 0), (["full"], .device)],
            contents := ["\x7b\"version\":1,\"ttl\":2,\"checksum\":3\x7d".toUTF8.toList],
            current := [], full := [["full"]] } }
    (folder.files.readAny? "view" = none ∧ (screen.run "encode" folder).exit.code ∉ [0, 1, 2]) ∧
      h.files.refuses "/full" = true ∧ (file.run "encode" h).exit.code = 0 ∧
      (file.run "encode" h).hub.files.read? "/full" = none := by
  decide +kernel

end Context

end WireRecords.Inspect
