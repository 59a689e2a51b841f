import WireRecords.Log.Violation
import WireRecords.Proofs.Delivery
import WireRecords.Proofs.Description
import WireRecords.Samples

/-!
# Short buffers are reported once

A throwing operation that refuses a short buffer leaves one entry with each global sink that hears
its logger. Whether that logger is there already does not matter, as registered loggers are alike
after whatever a program did before, as long as it changed none of them by itself. The operations
that answer with a status leave no trace.
-/

namespace WireRecords.Log.Hub

def manager (h : Hub) : Hub :=
  { h with files := { current := [] }, printed := [], formats := [], sinks := [],
           now := { seconds := 0 }, thread := "" }

theorem manager_changeFile (h : Hub) (s : SinkId)
    (change : RollingFile → FileSystem → RollingFile × FileSystem) :
    (h.changeFile s change).manager = h.manager := by
  rw [changeFile]
  split <;> rfl

theorem manager_write (h : Hub) (s : SinkId) (e : Entry) : (h.write s e).manager = h.manager := by
  rw [write]
  cases h.sinks[s]? with
  | none => rfl
  | some t =>
    dsimp only
    cases t.target with
    | stream stream colored => rfl
    | file f => exact h.manager_changeFile s _

theorem manager_foldl {α : Type} {step : Hub → α → Hub}
    (same : ∀ h a, (step h a).manager = h.manager) (items : List α) (h : Hub) :
    (items.foldl step h).manager = h.manager := by
  induction items generalizing h with
  | nil => rfl
  | cons item items ih => exact (ih (step h item)).trans (same h item)

theorem manager_writeAll (h : Hub) (writes : List (SinkId × Entry)) :
    (h.writeAll writes).manager = h.manager :=
  manager_foldl (fun h (w : SinkId × Entry) => h.manager_write w.1 w.2) writes h

theorem manager_log (h : Hub) (id : LoggerId) (m : Message) : (h.log id m).manager = h.manager := by
  rw [log_eq_writeAll, manager_writeAll]

theorem manager_flushLogger (h : Hub) (id : LoggerId) :
    (h.flushLogger id).manager = h.manager :=
  manager_foldl (fun h s => h.manager_changeFile s _) (h.sinksOf id) h

theorem manager_flushAll (h : Hub) : h.flushAll.manager = h.manager :=
  manager_foldl manager_flushLogger h.registered h

theorem manager_closeAll (h : Hub) (ids : List SinkId) :
    (ids.foldl closeSink h).manager = h.manager :=
  manager_foldl (fun h s => h.manager_changeFile s _) ids h

/-- Whatever a program may do with loggers and sinks, short of changing a single logger. -/
inductive Action where
  | call (c : Call)
  | newLogger (name : String)
  | newFormat (f : Format)
  | setFormat (id : FormatId) (f : Format)
  | newStreamSink (f : Format) (stream : Stream) (colored : Bool)
  | newFileSink (f : Format) (path : String) (maxSize maxFiles : Nat)
  | setMinLevel (sink : SinkId) (level : Level)
  | setFormatter (sink : SinkId) (format : FormatId)
  | setClock (now : Moment) (thread : String)
  | setFiles (files : FileSystem)
  | log (id : LoggerId) (message : Message)
  | write (sink : SinkId) (e : Entry)
  | flushSink (sink : SinkId)
  | closeSink (sink : SinkId)
  | flushLogger (id : LoggerId)
  | flushAll
  | shutdown
  | release (before now : List SinkId)
  | encode (R : RecordType) (v : R.Value) (buf : Bytes)
  | decode (R : RecordType) (buf : Bytes)
  | fieldValue (l : Layout) (path : String) (data : Bytes)
  | tryEncode (R : RecordType) (v : R.Value) (buf : Bytes)
  | tryDecode (R : RecordType) (buf : Bytes)

def act (h : Hub) : Action → Hub
  | .call c => h.perform c
  | .newLogger name => (h.newLogger { name }).1
  | .newFormat f => (h.newFormat f).1
  | .setFormat id f => h.setFormat id f
  | .newStreamSink f stream colored => (h.newStreamSink f stream colored).1
  | .newFileSink f path maxSize maxFiles => (h.newFileSink f path maxSize maxFiles).1
  | .setMinLevel s level => h.modifySink s fun t => { t with minLevel := level }
  | .setFormatter s format => h.modifySink s fun t => { t with format }
  | .setClock now thread => { h with now, thread }
  | .setFiles files => { h with files }
  | .log id m => h.log id m
  | .write s e => h.write s e
  | .flushSink s => h.flushSink s
  | .closeSink s => h.closeSink s
  | .flushLogger id => h.flushLogger id
  | .flushAll => h.flushAll
  | .shutdown => h.shutdown
  | .release before now => h.release before now
  | .encode R v buf => (h.encode R v buf).2
  | .decode R buf => (h.decode R buf).2
  | .fieldValue l path data => (h.fieldValue l path data).2
  | .tryEncode R v buf => (h.tryEncode R v buf).2
  | .tryDecode R buf => (h.tryDecode R buf).2

def actAll (h : Hub) (actions : List Action) : Hub := actions.foldl act h

namespace Uniform

variable {h : Hub}

theorem of_manager {h' : Hub} (u : h.Uniform) (same : h'.manager = h.manager) : h'.Uniform := by
  have unchanged : h'.manager.Uniform := by
    rw [same]
    exact u
  exact unchanged

theorem newLogger (u : h.Uniform) (l : Logger) : (h.newLogger l).1.Uniform := by
  intro name id found
  have older : h.registry.get? name = some id := found
  exact (List.getElem?_append_left (u.lt_length older)).trans (u name id older)

theorem report (u : h.Uniform) (e : CodecError) : (h.report e).Uniform := by
  cases e with
  | bufferSize operation required actual =>
    exact (u.getLogger codecName).of_manager (manager_log _ _ _)
  | _ => exact u

theorem reporting (u : h.Uniform) {α : Type} (result : Except CodecError α) :
    (h.reporting result).2.Uniform := by
  cases result with
  | ok a => exact u
  | error e => exact u.report e

theorem act (u : h.Uniform) (a : Action) : (h.act a).Uniform := by
  cases a with
  | call c => exact u.perform c
  | newLogger name => exact u.newLogger _
  | log id m => exact u.of_manager (h.manager_log id m)
  | write s e => exact u.of_manager (h.manager_write s e)
  | flushSink s => exact u.of_manager (h.manager_changeFile s _)
  | closeSink s => exact u.of_manager (h.manager_changeFile s _)
  | flushLogger id => exact u.of_manager (h.manager_flushLogger id)
  | flushAll => exact u.of_manager h.manager_flushAll
  | shutdown => exact u.of_manager ((manager_closeAll _ _).trans h.manager_flushAll)
  | release before now => exact u.of_manager (manager_closeAll _ _)
  | encode R v buf => exact u.reporting _
  | decode R buf => exact u.reporting _
  | fieldValue l path data => exact u.reporting _
  | _ => exact u

theorem actAll (u : h.Uniform) (actions : List Action) : (h.actAll actions).Uniform := by
  induction actions generalizing h with
  | nil => exact u
  | cons a actions ih => exact ih (u.act a)

end Uniform

def shortEntry (h : Hub) (operation : String) (required actual : Nat) : Entry where
  level := .debug
  logger := codecName
  message := "buffer too small"
  time := h.now
  thread := h.thread
  file := h.reportFile
  line := 13
  function := "throw_buffer_size_error"
  metadata := [("operation", operation), ("required", toString required),
    ("actual", toString actual)]

/-- Debug entries of registered loggers reach the sink. -/
def HearsDebug (h : Hub) (s : SinkId) : Prop :=
  h.level ≤ .debug ∧ s ∈ h.globalSinks ∧ ∃ t ∈ h.sinks[s]?, t.minLevel ≤ .debug

instance (h : Hub) (s : SinkId) : Decidable (h.HearsDebug s) :=
  inferInstanceAs (Decidable (_ ∧ _ ∧ _))

/-- An entry of the codec's logger has gone once to each sink that hears it, and nothing else has
happened but that this logger may be new. -/
structure LoggedOnce (h : Hub) (e : Entry) (h' : Hub) : Prop where
  delivered : ∃ writes, h' = (h.getLogger codecName).1.writeAll writes ∧
    ∀ s, (writes.filter fun w => w.1 = s).map Prod.snd = if h.HearsDebug s then [e] else []
  known : (h.registry.get? codecName).isSome → h'.manager = h.manager
  new : h.registry.get? codecName = none → h'.manager =
    { h.manager with
      registry := h.registry.insert codecName h.loggers.length
      loggers := h.loggers ++ [h.common codecName] }
  thresholds : h'.sinks.map Sink.minLevel = h.sinks.map Sink.minLevel

variable {h : Hub}

theorem takes_iff {level : Level} {s : SinkId} :
    h.takes level s = true ↔ ∃ t ∈ h.sinks[s]?, t.minLevel ≤ level := by
  rw [takes]
  cases h.sinks[s]? <;> simp

theorem recipients_common {id : LoggerId} {name : String}
    (there : h.loggers[id]? = some (h.common name)) :
    h.recipients id .debug = h.globalSinks.eraseDups.filter fun s => h.HearsDebug s := by
  have passes : (h.common name).passes .debug = true ↔ h.level ≤ .debug := by
    rw [Logger.passes, Bool.and_eq_true, decide_eq_true_iff, decide_eq_true_iff]
    exact and_iff_right (by decide)
  rw [recipients, there]
  by_cases low : h.level ≤ .debug
  · refine (if_pos (passes.mpr low)).trans (List.filter_congr fun s member => ?_)
    rw [Bool.eq_iff_iff, takes_iff, decide_eq_true_iff]
    exact ⟨fun takes => ⟨low, List.mem_eraseDups.mp member, takes⟩, fun hears => hears.2.2⟩
  · refine (if_neg (mt passes.mp low)).trans (List.filter_eq_nil_iff.mpr ?_).symm
    intro s member hears
    exact low (of_decide_eq_true hears).1

/-- Where the report on a buffer goes to, in order. -/
def reports (h : Hub) (operation : String) (required actual : Nat) : List (SinkId × Entry) :=
  (h.globalSinks.eraseDups.filter fun s => h.HearsDebug s).map fun s =>
    (s, h.shortEntry operation required actual)

theorem log_shortMessage {id : LoggerId} (there : h.loggers[id]? = some (h.common codecName))
    (operation : String) (required actual : Nat) :
    h.log id (h.shortMessage operation required actual) =
      h.writeAll (h.reports operation required actual) := by
  have entry : h.entryOf id (h.shortMessage operation required actual) =
      h.shortEntry operation required actual := by
    rw [entryOf, there]
    rfl
  have recipients : h.recipients id (h.shortMessage operation required actual).level = _ :=
    recipients_common there
  rw [log_eq_writeAll, entry, recipients]
  rfl

theorem report_eq_writeAll (u : h.Uniform) (operation : String) (required actual : Nat) :
    h.report (.bufferSize operation required actual) =
      (h.getLogger codecName).1.writeAll (h.reports operation required actual) := by
  have there := u.getLogger codecName codecName _ (get?_getLogger h codecName)
  have plain := bare_perform_of_not_configures (h := h) (c := .getLogger codecName) id
  -- the reports do not depend on what asking for the logger has changed
  obtain ⟨loggers, registry, made⟩ := bare_eq_iff.mp plain.symm
  have same : (h.getLogger codecName).1.reports operation required actual =
      h.reports operation required actual := by
    rw [show (h.getLogger codecName).1 = _ from made]
    rfl
  rw [← same]
  exact log_shortMessage there operation required actual

theorem report_loggedOnce (u : h.Uniform) (operation : String) (required actual : Nat) :
    h.LoggedOnce (h.shortEntry operation required actual)
      (h.report (.bufferSize operation required actual)) := by
  have distinct := (Logger.nodup_eraseDups h.globalSinks).filter fun s => h.HearsDebug s
  have reached (s : SinkId) :
      s ∈ h.globalSinks.eraseDups.filter (fun s => h.HearsDebug s) ↔ h.HearsDebug s := by
    rw [List.mem_filter, decide_eq_true_iff, List.mem_eraseDups]
    exact ⟨fun both => both.2, fun hears => ⟨hears.2.1, hears⟩⟩
  rw [report_eq_writeAll u]
  refine ⟨⟨_, rfl, fun s => ?_⟩, ?_, ?_, ?_⟩
  · rw [reports, sent_to distinct]
    exact if_congr (reached s) rfl rfl
  · intro known
    obtain ⟨id, found⟩ := Option.isSome_iff_exists.mp known
    rw [manager_writeAll, getLogger_of_get? found]
  · intro unknown
    rw [manager_writeAll, getLogger_of_get?_none unknown]
    rfl
  · rw [(settings_writeAll _ _).2, Hub.getLogger]
    split <;> rfl

/-- After whatever a program did, short of changing a single logger, an operation that throws on a
short buffer reports it once to each global sink that hears debug entries, and throws what it has
reported. But for the logger of these reports, which may be new, the registry and all loggers stay
as they are. The operations that answer with a status change nothing. -/
theorem short_buffer_reported_once {start : Hub} (empty : start.registry = KeyMap.empty)
    (actions : List Action) :
    let h := start.actAll actions
    (∀ (R : RecordType) (v : R.Value) (buf : Bytes), buf.length < R.byteLen →
      (h.encode R v buf).1 = .error (.bufferSize "encode" R.byteLen buf.length) ∧
      h.LoggedOnce (h.shortEntry "encode" R.byteLen buf.length) (h.encode R v buf).2 ∧
      h.tryEncode R v buf = ((.error .bufferTooSmall, buf), h)) ∧
    (∀ (R : RecordType) (buf : Bytes), buf.length < R.byteLen →
      (h.decode R buf).1 = .error (.bufferSize "decode" R.byteLen buf.length) ∧
      h.LoggedOnce (h.shortEntry "decode" R.byteLen buf.length) (h.decode R buf).2 ∧
      h.tryDecode R buf = (.error .bufferTooSmall, h)) ∧
    ∀ (l : Layout) (path : String) (d : FieldDefinition) (children : FieldList) (data : Bytes),
      l.find? path = some (d, children) → d.isRecord = false → data.length < l.size.toNat →
      (h.fieldValue l path data).1 =
        .error (.bufferSize "get_field_value" l.size.toNat data.length) ∧
      h.LoggedOnce (h.shortEntry "get_field_value" l.size.toNat data.length)
        (h.fieldValue l path data).2 := by
  intro h
  have u : h.Uniform := (uniform_of_empty empty).actAll actions
  refine ⟨?_, ?_, ?_⟩
  · intro R v buf short
    have refused : R.encode v buf = .error (.bufferSize "encode" R.byteLen buf.length) := by
      rw [RecordType.encode, RecordType.write, if_pos short]
    have answer : R.tryEncode v buf = (.error .bufferTooSmall, buf) := if_pos short
    rw [encode, refused, tryEncode, answer]
    exact ⟨rfl, report_loggedOnce u _ _ _, rfl⟩
  · intro R buf short
    have refused : R.decode buf = .error (.bufferSize "decode" R.byteLen buf.length) :=
      if_pos short
    have answer : R.tryDecode buf = .error .bufferTooSmall := if_pos short
    rw [decode, refused, tryDecode, answer]
    exact ⟨rfl, report_loggedOnce u _ _ _, rfl⟩
  · intro l path d children data found scalar short
    have refused : l.value path data =
        .error (.bufferSize "get_field_value" l.size.toNat data.length) :=
      (Layout.value_of_find? found scalar data).trans (if_pos short)
    rw [fieldValue, refused]
    exact ⟨rfl, report_loggedOnce u _ _ _⟩

/-- A sink is added twice, and another one does not hear debug entries. The first report makes its
logger, the next ones find it. -/
theorem short_buffer_reported_twice :
    let plain : Format := { timePattern := "T" }
    let start : Hub := { files := { current := [] } }
    let setUp : List Action :=
      [.newStreamSink plain (.named "a") false, .newStreamSink plain (.named "b") false,
       .call (.addGlobalSink 0), .call (.addGlobalSink 1), .call (.addGlobalSink 0),
       .setMinLevel 1 .info, .call (.setLevel .debug), .tryDecode Samples.packet [1]]
    let h := start.actAll setUp
    let h' := start.actAll (setUp ++ [.decode Samples.packet [1, 2]])
    let l := Layout.add (.named "one") ⟨"a", 0, 4, .big, .uint⟩ .nil
    start.registry = KeyMap.empty ∧ [1, 2].length < Samples.packet.byteLen ∧
      [(3 : UInt8)].length < l.size.toNat ∧ h.HearsDebug 0 ∧ ¬ h.HearsDebug 1 ∧
      h.printed = [] ∧ h.registry.get? codecName = none ∧
      (h.decode Samples.packet [1, 2]).1 = .error (.bufferSize "decode" 7 2) ∧
      h.tryDecode Samples.packet [1, 2] = (.error .bufferTooSmall, h) ∧
      (h.decode Samples.packet [1, 2]).2.manager =
        { h.manager with
          registry := h.registry.insert codecName 0
          loggers := [{ name := codecName, level := .debug, sinks := [0, 1] }] } ∧
      h'.printed = [(.named "a", "T | DEBUG | structwire.packet | buffer too small | " ++
        "[actual=2,operation=decode,required=7]\n")] ∧
      (h'.fieldValue l "a" [3]).1 = .error (.bufferSize "get_field_value" 4 1) ∧
      (h'.fieldValue l "a" [3]).2.manager = h'.manager ∧
      (h'.fieldValue l "a" [3]).2.printed = h'.printed ++
        [(.named "a", "T | DEBUG | structwire.packet | buffer too small | " ++
          "[actual=1,operation=get_field_value,required=4]\n")] := by
  intro plain start setUp h h' l
  have empty : start.registry = KeyMap.empty := rfl
  have short : [1, 2].length < Samples.packet.byteLen := by decide
  have short' : [(3 : UInt8)].length < l.size.toNat := by decide
  have found : l.find? "a" = some (⟨"a", 0, 4, .big, .uint⟩, .nil) := by decide
  obtain ⟨-, decoding, -⟩ := short_buffer_reported_once empty setUp
  obtain ⟨-, -, reading⟩ :=
    short_buffer_reported_once empty (setUp ++ [.decode Samples.packet [1, 2]])
  obtain ⟨refused, once, answered⟩ := decoding Samples.packet [1, 2] short
  obtain ⟨refused', once'⟩ := reading l "a" _ _ [3] found rfl short'
  have unknown : h.registry.get? codecName = none := by decide +kernel
  have known : (h'.registry.get? codecName).isSome := by decide +kernel
  refine ⟨empty, short, short', by decide +kernel, by decide +kernel, by decide +kernel, unknown,
    refused, answered, ?_, by decide +kernel, refused', once'.known known, by decide +kernel⟩
  exact once.new unknown

end WireRecords.Log.Hub
