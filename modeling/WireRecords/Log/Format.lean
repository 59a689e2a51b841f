import WireRecords.Calendar.Pattern
import WireRecords.Json.Print
import WireRecords.Log.Level

/-!
# Log entries and their text

An entry is written as fields with a separator between them, or as a JSON object. The order in which
an entry holds its metadata does not matter: the text lists it by increasing key.
-/

namespace WireRecords.Log

structure Entry where
  level : Level
  logger : String := ""
  message : String := ""
  time : Moment := { seconds := 0 }
  thread : String := ""
  file : String := ""
  line : Int := 0
  function : String := ""
  metadata : List (String × String) := []
  deriving DecidableEq, Repr

namespace Entry

/-- The metadata by increasing key; of two values of a key the later one stays. -/
def sortedMetadata (e : Entry) : List (String × String) :=
  e.metadata.foldl (fun m kv => Entries.insert m kv.1 kv.2) []

end Entry

structure Format where
  timePattern : String := "%Y-%m-%d %H:%M:%S"
  showThread : Bool := false
  showFile : Bool := false
  showMetadata : Bool := true
  json : Bool := false
  separator : String := " | "
  deriving DecidableEq, Repr

namespace Format

def showsFile (f : Format) (e : Entry) : Bool := f.showFile && e.file ≠ ""

def showsMetadata (f : Format) (e : Entry) : Bool := f.showMetadata && !e.metadata.isEmpty

def intText (n : Int) : String := String.ofList (Json.intText n)

def metadataText (metadata : List (String × String)) : String :=
  "[" ++ ",".intercalate (metadata.map fun kv => kv.1 ++ "=" ++ kv.2) ++ "]"

def fields (f : Format) (e : Entry) : List String :=
  [Calendar.format f.timePattern e.time, e.level.label, e.logger] ++
    (if f.showThread && e.thread ≠ "" then ["tid=" ++ e.thread] else []) ++
    (if f.showsFile e then [e.file ++ ":" ++ intText e.line] else []) ++
    [e.message] ++
    (if f.showsMetadata e then [metadataText e.sortedMetadata] else [])

def text (f : Format) (e : Entry) : String := f.separator.intercalate (f.fields e)

def members (f : Format) (e : Entry) : List (String × Json) :=
  [("time", .string (Calendar.format f.timePattern e.time)), ("level", .string e.level.label),
    ("logger", .string e.logger), ("msg", .string e.message)] ++
    (if f.showsFile e then [("file", .string e.file), ("line", .ofInt e.line)] else []) ++
    (if f.showsMetadata e then
      [("metadata", .object (e.sortedMetadata.map fun kv => (kv.1, .string kv.2)))] else [])

def jsonText (f : Format) (e : Entry) : String := (Json.ofMembers (f.members e)).compact

def render (f : Format) (e : Entry) : String := if f.json then f.jsonText e else f.text e

end Format

end WireRecords.Log
