import WireRecords.Bytes
import WireRecords.Text

/-!
# File systems

A tree of directories and files as a value. A place is the list of names from the root down; a path
is a text that is walked, name by name, from the root or from the current directory. Whatever has to
stand in the way of a path must be a directory, so an operation on a path fails without a trace if
one of them is missing.

A file is more than its place: whoever has opened it goes on writing to the same file when it is
moved, removed or emptied. So a place holds the number of a file, and the contents are kept apart.
-/

namespace WireRecords

/-- The number of a file, which it keeps wherever it is moved. -/
abbrev FileId := Nat

inductive Node where
  | directory
  | file (id : FileId)
  | device
  deriving DecidableEq, Repr

abbrev Place := List String

structure FileSystem where
  nodes : List (Place × Node) := []
  /-- What each file holds, also one that stands nowhere any more. -/
  contents : List Bytes := []
  current : Place
  /-- The devices that have no room for a single byte. -/
  full : List Place := []
  deriving Repr

namespace FileSystem

def content (fs : FileSystem) (id : FileId) : Bytes := (fs.contents[id]?).getD []

def setContent (fs : FileSystem) (id : FileId) (content : Bytes) : FileSystem :=
  { fs with contents := fs.contents.set id content }

def newFile (fs : FileSystem) (content : Bytes) : FileId × FileSystem :=
  (fs.contents.length, { fs with contents := fs.contents ++ [content] })

@[simp] theorem content_setContent {fs : FileSystem} {id : FileId} (h : id < fs.contents.length)
    (content : Bytes) : (fs.setContent id content).content id = content := by
  simp [FileSystem.content, setContent, h]

theorem content_setContent_of_ne {fs : FileSystem} {id id' : FileId} (h : id ≠ id')
    (content : Bytes) : (fs.setContent id content).content id' = fs.content id' := by
  simp [FileSystem.content, setContent, h]

@[simp] theorem length_contents_setContent (fs : FileSystem) (id : FileId) (content : Bytes) :
    (fs.setContent id content).contents.length = fs.contents.length := by
  simp [setContent]

@[simp] theorem content_newFile (fs : FileSystem) (content : Bytes) :
    (fs.newFile content).2.content (fs.newFile content).1 = content := by
  simp [FileSystem.content, newFile]

def nodeAt (fs : FileSystem) (place : Place) : Option Node :=
  if place = [] then some .directory else fs.nodes.lookup place

def clear (fs : FileSystem) (place : Place) : FileSystem :=
  { fs with nodes := fs.nodes.filter fun entry => entry.1 ≠ place }

def put (fs : FileSystem) (place : Place) (node : Node) : FileSystem :=
  { fs with nodes := (place, node) :: (fs.clear place).nodes }

def putFile (fs : FileSystem) (place : Place) (content : Bytes) : FileId × FileSystem :=
  let (id, fs) := fs.newFile content
  (id, fs.put place (.file id))

def addDirectories (fs : FileSystem) (place : Place) : FileSystem :=
  (List.range place.length).foldl (fun fs n =>
    let p := place.take (n + 1)
    if fs.nodeAt p = none then fs.put p .directory else fs) fs

def withCurrent (place : Place) : FileSystem := addDirectories { current := place } place

def maxName : Nat := 255

def maxPath : Nat := 4095

/-- Follows names downwards. An empty name and a single point stay, two points go up, and every step
needs a directory to start from. Nothing stands under a name that is too long. -/
def walk (fs : FileSystem) : Place → List String → Option Place
  | place, [] => some place
  | place, name :: rest =>
    if fs.nodeAt place = some .directory then
      if name = "" ∨ name = "." then fs.walk place rest
      else if name = ".." then fs.walk place.dropLast rest
      else if name.utf8ByteSize ≤ maxName then fs.walk (place ++ [name]) rest
      else none
    else none

/-- The place that a path leads to, whether something stands there or not. A path ends at a NUL; an
empty one leads nowhere, and neither does one that is too long. -/
def locate? (fs : FileSystem) (path : String) : Option Place :=
  let path := Text.beforeNul path
  if maxPath < path.utf8ByteSize then none
  else
    match path.toList with
    | [] => none
    | '/' :: _ => fs.walk [] (Text.split '/' path)
    | _ => fs.walk fs.current (Text.split '/' path)

def nodeOf? (fs : FileSystem) (path : String) : Option Node :=
  (fs.locate? path).bind fs.nodeAt

def read? (fs : FileSystem) (path : String) : Option Bytes :=
  match fs.nodeOf? path with
  | some (.file id) => some (fs.content id)
  | _ => none

/-- What comes of opening a path and reading it to its end. -/
inductive Reading where
  | refused
  | broken
  | bytes (content : Bytes)
  deriving DecidableEq, Repr

/-- A file gives its content and a device nothing. A directory can be opened like a file. -/
def reading (fs : FileSystem) (path : String) : Reading :=
  match fs.nodeOf? path with
  | some (.file id) => .bytes (fs.content id)
  | some .device => .bytes []
  | some .directory => .broken
  | none => .refused

def readAny? (fs : FileSystem) (path : String) : Option Bytes :=
  match fs.reading path with
  | .bytes content => some content
  | _ => none

def refuses (fs : FileSystem) (path : String) : Bool :=
  (fs.locate? path).any fun place => fs.nodeAt place = some .device && fs.full.contains place

/-- Opens the file at a path for writing, creating it if it is missing. What is written to a device
goes to a file that stands nowhere. -/
def openFile? (fs : FileSystem) (path : String) : Option (FileId × FileSystem) :=
  match fs.locate? path with
  | none => none
  | some place =>
    match fs.nodeAt place with
    | some .directory => none
    | some (.file id) => some (id, fs)
    | some .device => some (fs.newFile [])
    | none => some (fs.putFile place [])

def isBare (fs : FileSystem) (place : Place) : Bool :=
  fs.nodes.all fun entry => entry.1 = place || !place.isPrefixOf entry.1

def remove (fs : FileSystem) (path : String) : FileSystem :=
  match fs.locate? path with
  | none => fs
  | some place =>
    if fs.nodeAt place = some .directory ∧ !fs.isBare place then fs else fs.clear place

def moveTree (fs : FileSystem) (source target : Place) : FileSystem :=
  { fs with nodes := fs.nodes.map fun entry =>
      if source.isPrefixOf entry.1 then (target ++ entry.1.drop source.length, entry.2) else entry }

/-- Moves a node. A directory takes the place of an empty directory, anything else that of anything
but a directory; otherwise what stands at the target is kept, and so is the source. -/
def move (fs : FileSystem) (source target : Place) : FileSystem :=
  match fs.nodeAt source, fs.nodeAt target with
  | none, _ => fs
  | some .directory, some (.file _) => fs
  | some .directory, some .device => fs
  | some .directory, _ =>
    if source.isPrefixOf target || !fs.isBare target then fs
    else (fs.clear target).moveTree source target
  | some _, some .directory => fs
  | some node, _ => (fs.clear source).put target node

def rename (fs : FileSystem) (source target : String) : FileSystem :=
  match fs.locate? source, fs.locate? target with
  | some source, some target => fs.move source target
  | _, _ => fs

def files (fs : FileSystem) : List (String × Bytes) :=
  fs.nodes.filterMap fun entry =>
    match entry.2 with
    | .file id =>
      if fs.current.isPrefixOf entry.1 then
        some ("/".intercalate (entry.1.drop fs.current.length), fs.content id)
      else none
    | _ => none

/-- The part of a path's last name from its last point on. A name that starts with its only point
has none, and neither have the names that are points only. -/
def extension (path : String) : String :=
  let name := ((Text.pieces '/' path.toList).getLast?.getD [])
  if name = ['.', '.'] then ""
  else
    let tail := (name.reverse.takeWhile fun c => c ≠ '.').reverse
    if tail.length + 1 < name.length then String.ofList ('.' :: tail) else ""

end FileSystem

end WireRecords
