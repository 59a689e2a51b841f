import WireRecords.KeyMap
import WireRecords.Log.Format
import WireRecords.Log.RollingFile

/-!
# Loggers and sinks

A hub holds everything that takes part in logging. Loggers have a name, a level and a list of sinks;
a sink writes lines to a stream or to a file; a format may be shared by several sinks. Loggers that
are asked for by name are registered, and the hub keeps all of them at one level and on one list of
sinks. An entry reaches a sink if it passes the logger's level and the sink's own. The lines of a
file may wait until the sink is flushed or closed; a sink that nobody refers to any more is closed.
-/

namespace WireRecords.Log

abbrev FormatId := Nat

abbrev SinkId := Nat

abbrev LoggerId := Nat

inductive Stream where
  | standard
  | named (name : String)
  deriving DecidableEq, Repr

inductive Target where
  | stream (stream : Stream) (colored : Bool)
  | file (file : RollingFile)
  deriving DecidableEq, Repr

structure Sink where
  minLevel : Level := .trace
  format : FormatId
  target : Target
  deriving DecidableEq, Repr

structure Logger where
  name : String
  level : Level := .info
  sinks : List SinkId := []
  deriving DecidableEq, Repr

namespace Logger

/-- A sink is attached once at most. -/
def addSink (l : Logger) (s : SinkId) : Logger :=
  if l.sinks.contains s then l else { l with sinks := l.sinks ++ [s] }

def removeSink (l : Logger) (s : SinkId) : Logger :=
  { l with sinks := l.sinks.filter fun t => t ≠ s }

def clearSinks (l : Logger) : Logger := { l with sinks := [] }

def passes (l : Logger) (level : Level) : Bool := level ≠ .off && l.level ≤ level

end Logger

structure Hub where
  files : FileSystem
  printed : List (Stream × String) := []
  formats : List Format := []
  sinks : List Sink := []
  loggers : List Logger := []
  registry : KeyMap LoggerId := KeyMap.empty
  level : Level := .warning
  globalSinks : List SinkId := []
  now : Moment := { seconds := 0 }
  thread : String := ""
  /-- The file from which violations are reported, by the name under which it was built. -/
  reportFile : String := ""

namespace Hub

def newFormat (h : Hub) (f : Format) : Hub × FormatId :=
  ({ h with formats := h.formats ++ [f] }, h.formats.length)

def setFormat (h : Hub) (id : FormatId) (f : Format) : Hub :=
  { h with formats := h.formats.set id f }

def newSink (h : Hub) (f : Format) (target : Target) : Hub × SinkId :=
  let (h, format) := h.newFormat f
  ({ h with sinks := h.sinks ++ [{ format, target }] }, h.sinks.length)

def newStreamSink (h : Hub) (f : Format) (stream : Stream) (colored : Bool) : Hub × SinkId :=
  h.newSink f (.stream stream colored)

def newFileSink (h : Hub) (f : Format) (path : String) (maxSize maxFiles : Nat) : Hub × SinkId :=
  let (file, files) := RollingFile.openAt h.files path maxSize maxFiles
  { h with files }.newSink f (.file file)

def modifySink (h : Hub) (id : SinkId) (change : Sink → Sink) : Hub :=
  { h with sinks := h.sinks.modify id change }

def changeFile (h : Hub) (id : SinkId)
    (change : RollingFile → FileSystem → RollingFile × FileSystem) : Hub :=
  match (h.sinks[id]?).map Sink.target with
  | some (.file f) =>
    let (f, files) := change f h.files
    { h with files }.modifySink id fun s => { s with target := .file f }
  | _ => h

def flushSink (h : Hub) (id : SinkId) : Hub := h.changeFile id RollingFile.flush

def closeSink (h : Hub) (id : SinkId) : Hub := h.changeFile id RollingFile.close

def colorize (level : Level) (line : String) : String :=
  "\x1b[" ++ level.color ++ "m" ++ line ++ "\x1b[0m"

def write (h : Hub) (id : SinkId) (e : Entry) : Hub :=
  match h.sinks[id]? with
  | none => h
  | some s =>
    let line := ((h.formats[s.format]?).getD {}).render e
    match s.target with
    | .stream stream colored =>
      let line := if colored then colorize e.level line else line
      { h with printed := h.printed ++ [(stream, line ++ "\n")] }
    | .file _ => h.changeFile id fun f files => f.write line files

def newLogger (h : Hub) (l : Logger) : Hub × LoggerId :=
  ({ h with loggers := h.loggers ++ [l] }, h.loggers.length)

def modifyLogger (h : Hub) (id : LoggerId) (change : Logger → Logger) : Hub :=
  { h with loggers := h.loggers.modify id change }

def takes (h : Hub) (level : Level) (id : SinkId) : Bool :=
  match h.sinks[id]? with
  | some s => s.minLevel ≤ level
  | none => false

def recipients (h : Hub) (id : LoggerId) (level : Level) : List SinkId :=
  match h.loggers[id]? with
  | some l => if l.passes level then l.sinks.filter (h.takes level) else []
  | none => []

structure Message where
  level : Level
  text : String
  metadata : List (String × String) := []
  file : String := ""
  line : Int := 0
  function : String := ""
  deriving DecidableEq, Repr

def entryOf (h : Hub) (id : LoggerId) (m : Message) : Entry where
  level := m.level
  logger := ((h.loggers[id]?).map Logger.name).getD ""
  message := m.text
  time := h.now
  thread := h.thread
  file := m.file
  line := m.line
  function := m.function
  metadata := m.metadata

def log (h : Hub) (id : LoggerId) (m : Message) : Hub :=
  (h.recipients id m.level).foldl (fun h' s => h'.write s (h.entryOf id m)) h

def sinksOf (h : Hub) (id : LoggerId) : List SinkId :=
  ((h.loggers[id]?).map Logger.sinks).getD []

def flushLogger (h : Hub) (id : LoggerId) : Hub := (h.sinksOf id).foldl flushSink h

def isRegistered (h : Hub) (id : LoggerId) : Bool :=
  h.registry.entries.any fun entry => entry.2 = id

def modifyRegistered (h : Hub) (change : Logger → Logger) : Hub :=
  { h with loggers := h.loggers.mapIdx fun id l => if h.isRegistered id then change l else l }

/-- The logger of a name. The first one to ask for a name gets a new logger. -/
def getLogger (h : Hub) (name : String) : Hub × LoggerId :=
  match h.registry.get? name with
  | some id => (h, id)
  | none =>
    let new : Logger := { name, level := h.level }
    let (h, id) := h.newLogger (h.globalSinks.foldl Logger.addSink new)
    ({ h with registry := h.registry.insert name id }, id)

def defaultName : String := "structwire"

def removeLogger (h : Hub) (name : String) : Hub :=
  { h with registry := h.registry.erase name }

def clearLoggers (h : Hub) : Hub := { h with registry := KeyMap.empty }

def setLevel (h : Hub) (level : Level) : Hub :=
  { h.modifyRegistered fun l => { l with level } with level }

def addGlobalSink (h : Hub) (id : SinkId) : Hub :=
  { h.modifyRegistered fun l => l.addSink id with globalSinks := h.globalSinks ++ [id] }

def clearGlobalSinks (h : Hub) : Hub :=
  { h.modifyRegistered fun l => h.globalSinks.foldl Logger.removeSink l with globalSinks := [] }

def registered (h : Hub) : List LoggerId :=
  ((List.range h.loggers.length).filter h.isRegistered).reverse

def flushAll (h : Hub) : Hub := h.registered.foldl flushLogger h

/-- Flushes all registered loggers and closes all global sinks. They stay attached. -/
def shutdown (h : Hub) : Hub := h.globalSinks.foldl closeSink h.flushAll

/-- Starts over with one level, and new global sinks: the coloured standard log stream, if it is
wanted, and a file, if its path is not empty. -/
def setup (h : Hub) (level : Level) (console : Bool) (path : String) : Hub :=
  let h := h.clearGlobalSinks.setLevel level
  let h := if console then
      let (h, id) := h.newStreamSink {} .standard true
      h.addGlobalSink id
    else h
  if path = "" then h
  else
    let (h, id) := h.newFileSink {} path 10485760 5
    h.addGlobalSink id

/-- The sinks that somebody refers to: those of all loggers that are registered or held by a caller,
the global ones, and those that a caller holds. A sink appears once for every reference. -/
def references (h : Hub) (loggers : List LoggerId) (sinks : List SinkId) : List SinkId :=
  (h.registered ++ loggers).flatMap h.sinksOf ++ h.globalSinks ++ sinks

def lastOnly : List SinkId → List SinkId
  | [] => []
  | s :: rest => if rest.contains s then lastOnly rest else s :: lastOnly rest

/-- Closes the sinks that have lost all their references, in the order of the last ones. -/
def release (h : Hub) (before now : List SinkId) : Hub :=
  (lastOnly (before.filter fun s => !now.contains s)).foldl closeSink h

end Hub

end WireRecords.Log
