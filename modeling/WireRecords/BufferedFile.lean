import WireRecords.FileSystem

/-!
# Buffered files

An open file that lines are written to. Bytes are held back until there are enough of them, or until
the file is flushed; readers of the file see only what has been passed on. Several buffered files
may write to one file. Those that add to its end never get in each other's way; one that writes from
its start on goes on where it stopped, whatever stands there by now.
-/

namespace WireRecords

/-- Where the next bytes go. -/
inductive Position where
  | atEnd
  | offset (n : Nat)
  deriving DecidableEq, Repr

namespace Position

def place (p : Position) (content bytes : Bytes) : Bytes :=
  match p with
  | atEnd => content ++ bytes
  | offset n => Bytes.patch content n bytes

def advance (p : Position) (count : Nat) : Position :=
  match p with
  | atEnd => atEnd
  | offset n => offset (n + count)

@[simp] theorem place_nil (p : Position) (content : Bytes) : p.place content [] = content := by
  cases p <;> simp [place, Bytes.patch]

theorem place_append (p : Position) (content as bs : Bytes) :
    (p.advance as.length).place (p.place content as) bs = p.place content (as ++ bs) := by
  cases p with
  | atEnd => simp [place, advance]
  | offset n => exact Bytes.patch_append content n as bs

end Position

structure BufferedFile where
  file : FileId
  position : Position
  pending : Bytes := []
  deriving DecidableEq, Repr

namespace BufferedFile

/-- As soon as this many bytes are waiting, they are passed on. -/
def capacity : Nat := 8191

def append? (fs : FileSystem) (path : String) : Option (BufferedFile × FileSystem) :=
  (fs.openFile? path).map fun (file, fs) => ({ file, position := .atEnd }, fs)

def create? (fs : FileSystem) (path : String) : Option (BufferedFile × FileSystem) :=
  (fs.openFile? path).map fun (file, fs) => ({ file, position := .offset 0 }, fs.setContent file [])

def pass (f : BufferedFile) (bytes : Bytes) (fs : FileSystem) : BufferedFile × FileSystem :=
  ({ f with position := f.position.advance bytes.length },
    fs.setContent f.file (f.position.place (fs.content f.file) bytes))

def flush (f : BufferedFile) (fs : FileSystem) : BufferedFile × FileSystem :=
  { f with pending := [] }.pass f.pending fs

/-- Writes a line. If too many bytes are waiting, all of them are passed on but the line's end. -/
def writeLine (f : BufferedFile) (line : Bytes) (fs : FileSystem) : BufferedFile × FileSystem :=
  let waiting := f.pending ++ line
  if waiting.length < capacity then ({ f with pending := waiting ++ [0x0A] }, fs)
  else { f with pending := [0x0A] }.pass waiting fs

/-- What the file holds when everything has been passed on. -/
def settled (f : BufferedFile) (fs : FileSystem) : Bytes :=
  f.position.place (fs.content f.file) f.pending

theorem content_flush {f : BufferedFile} {fs : FileSystem} (h : f.file < fs.contents.length) :
    (f.flush fs).2.content f.file = f.settled fs := by
  simp [flush, pass, settled, h]

theorem settled_flush {f : BufferedFile} {fs : FileSystem} (h : f.file < fs.contents.length) :
    (f.flush fs).1.settled (f.flush fs).2 = f.settled fs := by
  simp [flush, pass, settled, h]

theorem settled_writeLine {f : BufferedFile} {fs : FileSystem} (h : f.file < fs.contents.length)
    (line : Bytes) :
    (f.writeLine line fs).1.settled (f.writeLine line fs).2 =
      f.position.place (fs.content f.file) (f.pending ++ line ++ [0x0A]) := by
  simp only [writeLine]
  split
  · rfl
  · simp only [pass, settled, FileSystem.content_setContent h, Position.place_append]

end BufferedFile

namespace FileSystem

/-- Fills a file anew and closes it, creating it if it is missing. Only bytes that the open file
does not hold back can be seen to be refused. -/
def write? (fs : FileSystem) (path : String) (content : Bytes) : Option FileSystem :=
  if BufferedFile.capacity ≤ content.length ∧ fs.refuses path then none
  else (fs.openFile? path).map fun (id, fs) => fs.setContent id content

theorem write?_of_short (fs : FileSystem) (path : String) {content : Bytes}
    (short : content.length < BufferedFile.capacity) :
    fs.write? path content = (fs.openFile? path).map fun (id, fs) => fs.setContent id content :=
  if_neg fun long => Nat.not_le.mpr short long.1

theorem exists_openFile?_of_write? {fs fs' : FileSystem} {path : String} {content : Bytes}
    (written : fs.write? path content = some fs') :
    ∃ id opened, fs.openFile? path = some (id, opened) ∧ fs' = opened.setContent id content := by
  rw [write?] at written
  split at written
  · cases written
  · obtain ⟨⟨id, opened⟩, h, same⟩ := Option.map_eq_some_iff.mp written
    exact ⟨id, opened, h, same.symm⟩

end FileSystem

end WireRecords
