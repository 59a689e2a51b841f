import WireRecords.Proofs.Delivery
import WireRecords.Proofs.Rotation
import WireRecords.Proofs.SingleLine

/-!
# The lines of an entry

Written as an object, an entry is one line whatever its texts hold. Written as fields, it shows the
caller's texts as they are: every line feed in them starts another line of the log, and what stands
behind it can be made to look like any other entry.
-/

namespace WireRecords

namespace Text

def lineFeeds (s : String) : Nat := s.toList.count '\n'

@[simp] theorem lineFeeds_append (s t : String) :
    lineFeeds (s ++ t) = lineFeeds s + lineFeeds t := by
  simp [lineFeeds]

theorem lineFeeds_eq_zero {s : String} : lineFeeds s = 0 ↔ '\n' ∉ s.toList := List.count_eq_zero

def lineFeedsIn (parts : List String) : Nat := (parts.flatMap String.toList).count '\n'

@[simp] theorem lineFeedsIn_nil : lineFeedsIn [] = 0 := rfl

@[simp] theorem lineFeedsIn_cons (s : String) (parts : List String) :
    lineFeedsIn (s :: parts) = lineFeeds s + lineFeedsIn parts := by
  simp [lineFeedsIn, lineFeeds]

@[simp] theorem lineFeedsIn_append (parts more : List String) :
    lineFeedsIn (parts ++ more) = lineFeedsIn parts + lineFeedsIn more := by
  simp [lineFeedsIn]

theorem lineFeedsIn_eq_zero {parts : List String} :
    lineFeedsIn parts = 0 ↔ ∀ s ∈ parts, '\n' ∉ s.toList := by
  simp [lineFeedsIn, List.count_eq_zero]

theorem lineFeeds_intercalate {separator : String} (single : lineFeeds separator = 0)
    (parts : List String) : lineFeeds (separator.intercalate parts) = lineFeedsIn parts := by
  induction parts with
  | nil => rfl
  | cons part parts ih =>
    cases parts with
    | nil => simp
    | cons next parts =>
      rw [String.intercalate_cons_cons, lineFeeds_append, lineFeeds_append, ih, single,
        lineFeedsIn_cons part, Nat.add_zero]

theorem count_utf8EncodeChar (c : Char) :
    (String.utf8EncodeChar c).count 0x0A = if c = '\n' then 1 else 0 := by
  have value : c = '\n' ↔ c.val.toNat = 10 := by
    rw [← Char.toNat_inj]
    rfl
  have bound : c.val.toNat < 0x110000 := by
    rcases c.valid with low | high
    · exact Nat.lt_trans low (by decide)
    · exact high.2
  simp only [String.utf8EncodeChar, value]
  generalize c.val.toNat = n at bound ⊢
  -- all bytes of a longer encoding lie above 127
  split_ifs <;>
    simp only [List.count_cons, List.count_nil, beq_iff_eq, ← UInt8.toNat_inj, UInt8.toNat_ofNat',
      UInt8.reduceToNat] <;>
    simp (disch := omega) only [Nat.mod_eq_of_lt] <;> grind

theorem count_bytes (s : String) : (bytes s).count 0x0A = lineFeeds s := by
  rw [bytes_eq, lineFeeds, encode]
  induction s.toList with
  | nil => rfl
  | cons c cs ih =>
    rw [List.flatMap_cons, List.count_append, ih, count_utf8EncodeChar, List.count_cons,
      Nat.add_comm]
    simp only [beq_iff_eq]

end Text

namespace Log

open Text (lineFeeds lineFeeds_eq_zero lineFeedsIn)

namespace Format

/-- What a line of fields shows as it was given. -/
def callerTexts (f : Format) (e : Entry) : List String :=
  [e.logger] ++ (if f.showThread && e.thread ≠ "" then [e.thread] else []) ++
    (if f.showsFile e then [e.file] else []) ++ [e.message] ++
    (if f.showsMetadata e then e.sortedMetadata.flatMap fun kv => [kv.1, kv.2] else [])

/-- The line feeds that the caller brings into the line of an entry. -/
def broughtIn (f : Format) (e : Entry) : Nat :=
  if f.json then 0 else lineFeedsIn (f.callerTexts e)

variable {f : Format} {e : Entry}

theorem lineFeeds_label (l : Level) : lineFeeds l.label = 0 := by
  rw [Level.label]
  split_ifs <;> rfl

theorem lineFeeds_intText (n : Int) : lineFeeds (intText n) = 0 := by
  rw [lineFeeds_eq_zero, intText, String.toList_ofList]
  exact (Json.printable_intText n).not_mem_newline

theorem lineFeeds_metadataText (metadata : List (String × String)) :
    lineFeeds (metadataText metadata) = lineFeedsIn (metadata.flatMap fun kv => [kv.1, kv.2]) := by
  have comma : lineFeeds "," = 0 := rfl
  have brackets : lineFeeds "[" = 0 ∧ lineFeeds "]" = 0 := ⟨rfl, rfl⟩
  have equals : lineFeeds "=" = 0 := rfl
  rw [metadataText, Text.lineFeeds_append, Text.lineFeeds_append, Text.lineFeeds_intercalate comma,
    brackets.1, brackets.2, Nat.zero_add, Nat.add_zero]
  induction metadata with
  | nil => rfl
  | cons kv metadata ih =>
    rw [List.map_cons, Text.lineFeedsIn_cons, ih]
    simp [equals, Nat.add_assoc]

theorem lineFeeds_text (separator : lineFeeds f.separator = 0)
    (time : lineFeeds (Calendar.format f.timePattern e.time) = 0) :
    lineFeeds (f.text e) = lineFeedsIn (f.callerTexts e) := by
  have thread : lineFeeds ("tid=" ++ e.thread) = lineFeeds e.thread := by
    rw [Text.lineFeeds_append, show lineFeeds "tid=" = 0 from rfl, Nat.zero_add]
  have file : lineFeeds (e.file ++ ":" ++ intText e.line) = lineFeeds e.file := by
    have colon : lineFeeds ":" = 0 := rfl
    simp [lineFeeds_intText, colon]
  have metadata := lineFeeds_metadataText e.sortedMetadata
  rw [text, Text.lineFeeds_intercalate separator, fields, callerTexts]
  -- a field that is shown is shown in both lists
  simp only [Text.lineFeedsIn_append, Text.lineFeedsIn_cons, Text.lineFeedsIn_nil,
    apply_ite lineFeedsIn, time, lineFeeds_label, thread, file, metadata, Nat.add_zero,
    Nat.zero_add]

theorem lineFeeds_render (separator : lineFeeds f.separator = 0)
    (time : lineFeeds (Calendar.format f.timePattern e.time) = 0) :
    lineFeeds (f.render e) = f.broughtIn e := by
  rw [render, broughtIn]
  split
  · exact lineFeeds_eq_zero.mpr (Json.newline_not_mem_compact _)
  · exact lineFeeds_text separator time

theorem broughtIn_eq_zero :
    f.broughtIn e = 0 ↔ f.json = true ∨ ∀ text ∈ f.callerTexts e, '\n' ∉ text.toList := by
  rw [broughtIn]
  split_ifs with object
  · simp [object]
  · simp [object, Text.lineFeedsIn_eq_zero]

def lead (f : Format) (e : Entry) : List String :=
  [Calendar.format f.timePattern e.time, e.level.label, e.logger] ++
    (if f.showThread && e.thread ≠ "" then ["tid=" ++ e.thread] else []) ++
    (if f.showsFile e then [e.file ++ ":" ++ intText e.line] else [])

theorem text_of_bare (bare : f.showsMetadata e = false) :
    f.text e = f.separator.intercalate (f.lead e) ++ f.separator ++ e.message := by
  have last : f.fields e = f.lead e ++ [e.message] := by
    rw [fields, bare, if_neg Bool.false_ne_true, List.append_nil]
    rfl
  have led : f.lead e ≠ [] := by simp [lead]
  rw [text, last, String.intercalate_append_of_ne_nil led (List.cons_ne_nil _ _),
    String.intercalate_singleton]

/-- A message that goes on with the line of another entry is written as both. -/
theorem render_forged (fields : f.json = false) (bare : f.showsMetadata e = false)
    (other : Entry) :
    f.render { e with message := e.message ++ "\n" ++ f.render other } =
      f.render e ++ "\n" ++ f.render other := by
  have written (e : Entry) : f.render e = f.text e := if_neg (by simp [fields])
  generalize f.render other = line
  have bare' : f.showsMetadata { e with message := e.message ++ "\n" ++ line } = false := bare
  rw [written, written, text_of_bare bare, text_of_bare bare']
  simp only [String.append_assoc]
  rfl

end Format

namespace RollingFile

theorem count_lineBytes (line : String) :
    (lineBytes line).count 0x0A = lineFeeds line + 1 := by
  rw [lineBytes, List.count_append]
  exact congrArg (· + 1) (Text.count_bytes line)

theorem writeAll_closed {file : RollingFile} (closed : file.stream = none) (lines : List String)
    (fs : FileSystem) : writeAll lines (file, fs) = (file, fs) := by
  induction lines with
  | nil => rfl
  | cons line lines ih =>
    have same : file.write line fs = (file, fs) := by rw [RollingFile.write, closed]
    rw [writeAll, same, ih]

end RollingFile

namespace Hub

def formatOf (h : Hub) (s : Sink) : Format := (h.formats[s.format]?).getD {}

theorem lineFeeds_colorize (level : Level) (line : String) :
    lineFeeds (colorize level line) = lineFeeds line := by
  have color : lineFeeds level.color = 0 := by
    rw [Level.color]
    split_ifs <;> rfl
  have escapes : lineFeeds "\x1b[" = 0 ∧ lineFeeds "m" = 0 ∧ lineFeeds "\x1b[0m" = 0 :=
    ⟨rfl, rfl, rfl⟩
  simp [colorize, color, escapes]

def printedLine (h : Hub) (s : Sink) (colored : Bool) (e : Entry) : String :=
  let line := (h.formatOf s).render e
  (if colored then colorize e.level line else line) ++ "\n"

theorem lineFeeds_printedLine (h : Hub) (s : Sink) (colored : Bool) (e : Entry) :
    lineFeeds (h.printedLine s colored e) = lineFeeds ((h.formatOf s).render e) + 1 := by
  rw [printedLine, Text.lineFeeds_append, show lineFeeds "\n" = 1 from rfl]
  cases colored with
  | false => rfl
  | true => exact congrArg (· + 1) (lineFeeds_colorize _ _)

variable {h : Hub} {id : SinkId} {s : Sink}

theorem write_stream (found : h.sinks[id]? = some s) {stream : Stream} {colored : Bool}
    (target : s.target = .stream stream colored) (e : Entry) :
    h.write id e = { h with printed := h.printed ++ [(stream, h.printedLine s colored e)] } := by
  simp only [write, found, target]
  rfl

theorem writeAll_stream (found : h.sinks[id]? = some s) {stream : Stream} {colored : Bool}
    (target : s.target = .stream stream colored) (es : List Entry) :
    (h.writeAll (es.map fun e => (id, e))).printed =
      h.printed ++ es.map fun e => (stream, h.printedLine s colored e) := by
  induction es generalizing h with
  | nil => exact (List.append_nil _).symm
  | cons e es ih =>
    have others := ih (h := h.write id e) (by rw [write_stream found target]; exact found)
    rw [write_stream found target, List.append_assoc] at others
    rw [List.map_cons, writeAll, List.foldl_cons, write_stream found target]
    exact others

theorem write_file (found : h.sinks[id]? = some s) {file : RollingFile}
    (target : s.target = .file file) (e : Entry) :
    let r := file.write ((h.formatOf s).render e) h.files
    ∃ s', (h.write id e).sinks[id]? = some s' ∧ s'.target = .file r.1 ∧
      (h.write id e).formatOf s' = h.formatOf s ∧ (h.write id e).files = r.2 := by
  intro r
  have written : h.write id e =
      { h with files := r.2 }.modifySink id fun s => { s with target := .file r.1 } := by
    simp only [write, changeFile, found, Option.map_some, target]
    rfl
  rw [written]
  refine ⟨{ s with target := .file r.1 }, ?_, rfl, rfl, rfl⟩
  rw [modifySink, List.getElem?_modify_eq, found]
  rfl

theorem writeAll_file (found : h.sinks[id]? = some s) {file : RollingFile}
    (target : s.target = .file file) (es : List Entry) :
    let h' := h.writeAll (es.map fun e => (id, e))
    let r := RollingFile.writeAll (es.map (h.formatOf s).render) (file, h.files)
    (h'.sinks[id]?).map Sink.target = some (.file r.1) ∧ h'.files = r.2 := by
  induction es generalizing h s file with
  | nil =>
    have same : (h.sinks[id]?).map Sink.target = some (.file file) := by
      rw [found, Option.map_some, target]
    exact ⟨same, rfl⟩
  | cons e es ih =>
    obtain ⟨s', found', target', format, files⟩ := write_file found target e
    have others := ih found' target'
    rw [format, files] at others
    exact others

/-- Where the time and the separator are on one line, an entry has as many line feeds as the
caller's texts bring into it: none if it is written as an object. A sink that is not closed adds
that many lines to its log for the entry, and one more, and nothing of the log is lost but from its
start. So a line of fields does not keep entries apart: a message may hold the line of any other
entry, and is written as both. -/
theorem writeAll_lines (found : h.sinks[id]? = some s) (es : List Entry)
    (separator : '\n' ∉ (h.formatOf s).separator.toList)
    (times : ∀ e ∈ es, '\n' ∉ (Calendar.format (h.formatOf s).timePattern e.time).toList) :
    let f := h.formatOf s
    let h' := h.writeAll (es.map fun e => (id, e))
    (∀ e ∈ es, lineFeeds (f.render e) = f.broughtIn e ∧
      (RollingFile.lineBytes (f.render e)).count 0x0A = f.broughtIn e + 1 ∧
      ('\n' ∉ (f.render e).toList ↔
        f.json = true ∨ ∀ text ∈ f.callerTexts e, '\n' ∉ text.toList)) ∧
    (∀ stream colored, s.target = .stream stream colored →
      h'.printed = h.printed ++ es.map (fun e => (stream, h.printedLine s colored e)) ∧
      ∀ e ∈ es, lineFeeds (h.printedLine s colored e) = f.broughtIn e + 1) ∧
    (∀ file path maxSize maxFiles live old, s.target = .file file →
      RollingFile.Holds path maxSize maxFiles (file, h.files) live old →
      ∃ file' live' old' dropped, (h'.sinks[id]?).map Sink.target = some (.file file') ∧
        RollingFile.Holds path maxSize maxFiles (file', h'.files) live' old' ∧
        dropped ++ (old'.reverse.flatten ++ live') = old.reverse.flatten ++ live ++
          (es.map fun e => RollingFile.lineBytes (f.render e)).flatten) ∧
    (∀ file, s.target = .file file → file.stream = none →
      (h'.sinks[id]?).map Sink.target = some (.file file) ∧ h'.files = h.files) ∧
    ∀ e other, f.json = false → f.showsMetadata e = false →
      f.render { e with message := e.message ++ "\n" ++ f.render other } =
        f.render e ++ "\n" ++ f.render other := by
  intro f h'
  have brought : ∀ e ∈ es, lineFeeds (f.render e) = f.broughtIn e := fun e member =>
    Format.lineFeeds_render (lineFeeds_eq_zero.mpr separator)
      (lineFeeds_eq_zero.mpr (times e member))
  refine ⟨?_, ?_, ?_, ?_, ?_⟩
  · intro e member
    refine ⟨brought e member, ?_, ?_⟩
    · rw [RollingFile.count_lineBytes, brought e member]
    · rw [← lineFeeds_eq_zero, brought e member, Format.broughtIn_eq_zero]
  · intro stream colored target
    refine ⟨writeAll_stream found target es, fun e member => ?_⟩
    rw [lineFeeds_printedLine]
    exact congrArg (· + 1) (brought e member)
  · intro file path maxSize maxFiles live old target holds
    obtain ⟨sink, files⟩ := writeAll_file found target es
    obtain ⟨live', old', dropped, held, grown⟩ := holds.writeAll_adds (es.map f.render)
    refine ⟨_, live', old', dropped, sink, ?_, ?_⟩
    · rw [show h'.files = _ from files]
      exact held
    · rw [← grown, List.map_map]
      rfl
  · intro file target closed
    obtain ⟨sink, files⟩ := writeAll_file found target es
    rw [RollingFile.writeAll_closed closed] at sink files
    exact ⟨sink, files⟩
  · intro e other fields bare
    exact Format.render_forged fields bare other

/-- The same entry is two lines on the terminal and one line in the file. Its message holds a line
feed and the metadata another one. -/
theorem writeAll_lines_both :
    let fields : Format := { timePattern := "T" }
    let object : Format := { timePattern := "T", json := true }
    let opened := RollingFile.openAt { current := [] } "app.log" 0 2
    let h : Hub :=
      { files := opened.2, formats := [fields, object],
        sinks := [{ format := 0, target := .stream .standard true },
          { format := 1, target := .file opened.1 }] }
    let e : Entry :=
      { level := .info, logger := "app", message := "a\nb", metadata := [("k", "v\n")] }
    '\n' ∉ fields.separator.toList ∧ '\n' ∉ (Calendar.format fields.timePattern e.time).toList ∧
      (h.writeAll [(0, e)]).printed =
        [(.standard, "\x1b[32mT | INFO | app | a\nb | [k=v\n]\x1b[0m\n")] ∧
      lineFeeds (fields.render e) = 2 ∧
      '\n' ∉ (object.render e).toList ∧
      ∃ file live old dropped,
        ((h.writeAll [(1, e)]).sinks[1]?).map Sink.target = some (.file file) ∧
        RollingFile.Holds "app.log" 0 2 (file, (h.writeAll [(1, e)]).files) live old ∧
        dropped ++ (old.reverse.flatten ++ live) = RollingFile.lineBytes (object.render e) ∧
        (RollingFile.lineBytes (object.render e)).count 0x0A = 1 := by
  intro fields object opened h e
  have separator : '\n' ∉ fields.separator.toList := by decide
  have time : ∀ e' ∈ [e], '\n' ∉ (Calendar.format fields.timePattern e'.time).toList := by
    decide +kernel
  obtain ⟨feeds, printed, -, -, -⟩ :=
    writeAll_lines (show h.sinks[0]? = some _ from rfl) [e] separator time
  obtain ⟨single, -, file, -, -⟩ :=
    writeAll_lines (show h.sinks[1]? = some _ from rfl) [e] separator time
  have first := List.mem_singleton_self e
  refine ⟨separator, time e first, ?_, ?_, ?_, ?_⟩
  · exact (printed .standard true rfl).1.trans (by decide +kernel)
  · exact (feeds e first).1.trans (by decide +kernel)
  · exact (single e first).2.2.mpr (.inl rfl)
  · have ready : RollingFile.Ready { current := [] } "app.log" [] :=
      .of_nodes_nil rfl (by decide)
        (show FileSystem.locate? { current := [] } "app.log" = some ["app.log"] by decide +kernel)
        (by decide)
    have opening := ready.openAt 0 2
    rw [RollingFile.room_of_places (by decide +kernel)] at opening
    obtain ⟨file', live, old, dropped, sink, held, grown⟩ :=
      file _ "app.log" 0 2 [] [] rfl opening
    exact ⟨file', live, old, dropped, sink, held, grown.trans (List.append_nil _),
      (single e first).2.1⟩

/-- Time and separator are on one line, the text is not, and a file gets the very bytes for it that
two other entries leave there. -/
theorem message_forges_entry :
    let f : Format := { timePattern := "T" }
    let ok : Entry := { level := .info, logger := "app", message := "ok" }
    let forged : Entry := { ok with message := "forged" }
    let e : Entry := { ok with message := "ok\nT | INFO | app | forged" }
    '\n' ∉ (Calendar.format f.timePattern e.time).toList ∧ '\n' ∉ f.separator.toList ∧
      '\n' ∈ (f.render e).toList ∧
      RollingFile.lineBytes (f.render e) =
        RollingFile.lineBytes (f.render ok) ++ RollingFile.lineBytes (f.render forged) := by
  decide +kernel

end Hub

end Log

end WireRecords
