import Std.Time.Zoned
import WireRecords.Inspect.Program

/-!
# Command line of the inspector

The inspector works on a picture of the file system that holds what its arguments can lead to. Its
output is printed, and files that it has changed are written, when it has finished.
-/

namespace WireRecords.CommandLine

open Inspect

def pathOf (place : Place) : String := "/" ++ "/".intercalate place

/-- Adds what stands at a place to the picture. What cannot be read counts as missing. -/
def look (fs : FileSystem) (place : Place) : IO FileSystem := do
  try
    let path ← IO.FS.realPath (pathOf place)
    match (← path.metadata).type with
    | .dir => return fs.put place .directory
    | .file =>
      let content ← IO.FS.readBinFile path
      return (fs.putFile place content.toList).2
    | _ => return fs.put place .device
  catch _ => return fs

def lookAlong (fs : FileSystem) (path : String) : IO FileSystem := do
  let start : Place := if path.startsWith "/" then [] else fs.current
  let walked ← (Text.split '/' path).foldlM (fun (state : FileSystem × Place) name => do
    let (fs, place) := state
    let place :=
      if name = "" ∨ name = "." then place
      else if name = ".." then place.dropLast
      else place ++ [name]
    return (← look fs place, place)) (fs, start)
  return walked.1

def pathsOf (s : Settings) : List String :=
  ["input", "json", "output", "log.file"].map fun key => s.getString key ""

def numberedPaths (s : Settings) : List String :=
  (List.range 5).map fun n => Log.RollingFile.numbered (s.getString "log.file" "") (n + 1)

def environment : IO Environment :=
  Program.environmentKeys.foldlM (fun env key => do
    let name := Environment.variableOf Program.variableStart key
    match ← IO.getEnv name with
    | some value => return env.set name value
    | none => return env) {}

def picture (arguments : List String) (env : Environment) : IO FileSystem := do
  let current := (toString (← IO.currentDir)).splitOn "/"
  let empty := FileSystem.withCurrent (current.filter fun name => name ≠ "")
  let empty := { empty with full := [["dev", "full"]] }
  let fs ← ((Program.settingsPath? arguments).toList).foldlM lookAlong empty
  match Program.settings? arguments env fs with
  | none => return fs
  | some s => (pathsOf s ++ numberedPaths s).foldlM lookAlong fs

/-- Writes the files that differ from the first picture, and removes those that are gone. -/
def store (before after : FileSystem) : IO Unit := do
  let content (fs : FileSystem) (place : Place) : Option Bytes := fs.read? (pathOf place)
  for (place, node) in before.nodes do
    if node ≠ .directory ∧ after.nodeAt place = none then IO.FS.removeFile (pathOf place)
  for (place, _) in after.nodes do
    match content after place with
    | none => pure ()
    | some bytes =>
      if content before place ≠ some bytes then
        IO.FS.writeBinFile (pathOf place) ⟨bytes.toArray⟩

def now : IO Moment := do
  let stamp ← Std.Time.Timestamp.now
  let rules ← try Std.Time.Database.defaultGetLocalZoneRules catch _ => pure default
  let zone := rules.timezoneAt stamp
  return { seconds := stamp.toSecondsSinceUnixEpoch.val
           zone := { ahead := zone.offset.second.val, name := zone.abbreviation } }

def run (arguments : List String) : IO UInt32 := do
  let env ← environment
  let files ← picture arguments env
  let reply := Program.run ("inspect" :: arguments) env { files, now := ← now }
  store files reply.hub.files
  let out ← IO.getStdout
  let err ← IO.getStderr
  out.putStr reply.out
  err.putStr (String.join (reply.hub.printed.map fun piece => piece.2))
  err.putStr reply.err
  out.flush
  return UInt32.ofNat reply.exit.code

end WireRecords.CommandLine

def main (arguments : List String) : IO UInt32 := WireRecords.CommandLine.run arguments
