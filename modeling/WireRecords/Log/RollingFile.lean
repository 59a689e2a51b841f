import WireRecords.BufferedFile

/-!
# Rolling files

A log file that is set aside when it has grown beyond its limit. The file set aside last has the
number 1, older ones have higher numbers, and the oldest one is dropped when there are too many.
-/

namespace WireRecords.Log

structure RollingFile where
  path : String
  /-- The size in bytes beyond which the file is set aside; zero sets no limit. -/
  maxSize : Nat := 10485760
  maxFiles : Nat := 5
  stream : Option BufferedFile := none
  /-- Bytes in the file, those that wait to be passed on among them. -/
  size : Nat := 0
  deriving DecidableEq, Repr

namespace RollingFile

def openAt (fs : FileSystem) (path : String) (maxSize maxFiles : Nat) :
    RollingFile × FileSystem :=
  match BufferedFile.append? fs path with
  | none => ({ path, maxSize, maxFiles }, fs)
  | some (stream, fs) =>
    ({ path, maxSize, maxFiles, stream, size := (fs.content stream.file).length }, fs)

def flush (f : RollingFile) (fs : FileSystem) : RollingFile × FileSystem :=
  match f.stream with
  | none => (f, fs)
  | some stream =>
    let (stream, fs) := stream.flush fs
    ({ f with stream }, fs)

def close (f : RollingFile) (fs : FileSystem) : RollingFile × FileSystem :=
  let (f, fs) := f.flush fs
  ({ f with stream := none }, fs)

/-- The path of a file set aside. -/
def numbered (path : String) (number : Nat) : String := path ++ "." ++ toString number

/-- Moves the files with the numbers up to `n` on to the next number, the highest first. -/
def shift (path : String) : Nat → FileSystem → FileSystem
  | 0, fs => fs
  | n + 1, fs => shift path n (fs.rename (numbered path (n + 1)) (numbered path (n + 2)))

def setAside (path : String) : Nat → FileSystem → FileSystem
  | 0, fs => fs
  | n + 1, fs => (shift path n (fs.remove (numbered path (n + 1)))).rename path (numbered path 1)

def rotate (f : RollingFile) (fs : FileSystem) : RollingFile × FileSystem :=
  let (f, fs) := f.close fs
  let fs := setAside f.path f.maxFiles fs
  match BufferedFile.create? fs f.path with
  | some (stream, fs) => ({ f with stream, size := 0 }, fs)
  | none => ({ f with size := 0 }, fs)

/-- Adds a line. A file that is beyond its limit afterwards is set aside at once. -/
def write (f : RollingFile) (line : String) (fs : FileSystem) : RollingFile × FileSystem :=
  match f.stream with
  | none => (f, fs)
  | some stream =>
    let bytes : Bytes := line.toUTF8.toList
    let (stream, fs) := stream.writeLine bytes fs
    let f := { f with stream, size := f.size + bytes.length + 1 }
    if f.maxSize ≠ 0 ∧ f.maxSize < f.size then f.rotate fs else (f, fs)

end RollingFile

end WireRecords.Log
