import WireRecords.Proofs.SetAside

/-!
# Rotation

A log file that is set aside whenever it has outgrown its limit loses nothing but its oldest part,
and that in whole files. What was written stands in the numbered files, from the highest number
down, and then in the log file, and no line is cut in two.

The bytes that wait in the stream count as the log file's: they are what is missing on the disk, and
flushing passes them on. How many files are kept is a matter of their names, too: a number that makes
the name of the log file too long leaves room for fewer of them.
-/

namespace WireRecords

namespace Position

/-- What is written next stands behind everything else. -/
def AtEnd (p : Position) (content : Bytes) : Prop := p = .atEnd ∨ p = .offset content.length

variable {p : Position} {content : Bytes}

theorem AtEnd.place (h : p.AtEnd content) (bytes : Bytes) :
    p.place content bytes = content ++ bytes := by
  rcases h with rfl | rfl
  · rfl
  · by_cases empty : bytes = []
    · simp [empty]
    · simp [Position.place, Bytes.patch, Bytes.overwrite, empty]

theorem AtEnd.advance (h : p.AtEnd content) (bytes : Bytes) :
    (p.advance bytes.length).AtEnd (content ++ bytes) := by
  rcases h with rfl | rfl
  · exact .inl rfl
  · exact .inr (by simp [Position.advance])

end Position

namespace Log.RollingFile

open FileSystem

def lineBytes (line : String) : Bytes := line.toUTF8.toList ++ [0x0A]

/-- The line makes an open file so long that it is set aside. -/
def Overflows (f : RollingFile) (line : String) : Prop :=
  f.stream ≠ none ∧ f.maxSize ≠ 0 ∧ f.maxSize < f.size + (lineBytes line).length

instance (f : RollingFile) (line : String) : Decidable (f.Overflows line) :=
  inferInstanceAs (Decidable (_ ∧ _ ∧ _))

def writeAll : List String → RollingFile × FileSystem → RollingFile × FileSystem
  | [], s => s
  | line :: lines, s => writeAll lines (s.1.write line s.2)

def rotations : List String → RollingFile × FileSystem → Nat
  | [], _ => 0
  | line :: lines, s =>
    (if s.1.Overflows line then 1 else 0) + rotations lines (s.1.write line s.2)

/-- An open log file, with the files set aside, the newest one first. There is room for as many of
them as the names allow and the limit of the log file does. -/
structure Rolling (path : String) (maxSize room : Nat) (f : RollingFile) (fs : FileSystem)
    (stream : BufferedFile) (ids : List FileId) : Prop where
  limits : f.path = path ∧ f.maxSize = maxSize
  opened : f.stream = some stream
  stands : Stands fs path f.maxFiles room (some stream.file) fun k => ids[k]?
  few : ids.length ≤ room
  known : stream.file < fs.contents.length
  others : ∀ id ∈ ids, id ≠ stream.file ∧ id < fs.contents.length
  atEnd : stream.position.AtEnd (fs.content stream.file)
  size : f.size = (stream.settled fs).length

namespace Rolling

variable {path : String} {maxSize room : Nat} {f : RollingFile} {fs : FileSystem}
  {stream : BufferedFile} {ids : List FileId}

theorem settled_eq (h : Rolling path maxSize room f fs stream ids) :
    stream.settled fs = fs.content stream.file ++ stream.pending := h.atEnd.place stream.pending

theorem extend (h : Rolling path maxSize room f fs stream ids) {fs' : FileSystem}
    {stream' : BufferedFile} {more : Bytes} (file : stream'.file = stream.file)
    (stands : Stands fs' path f.maxFiles room (some stream.file) fun k => ids[k]?)
    (length : fs'.contents.length = fs.contents.length)
    (atEnd : stream'.position.AtEnd (fs'.content stream.file))
    (settled : stream'.settled fs' = stream.settled fs ++ more) :
    Rolling path maxSize room { f with stream := some stream', size := f.size + more.length }
      fs' stream' ids where
  limits := h.limits
  opened := rfl
  stands := file ▸ stands
  few := h.few
  known := file ▸ length ▸ h.known
  others := file ▸ length ▸ h.others
  atEnd := file ▸ atEnd
  size := by rw [settled, List.length_append, h.size]

theorem pass (h : Rolling path maxSize room f fs stream ids) {bytes rest more : Bytes}
    (settled : ({ stream with pending := rest }.pass bytes fs).1.settled
      ({ stream with pending := rest }.pass bytes fs).2 = stream.settled fs ++ more) :
    let s := { stream with pending := rest }.pass bytes fs
    Rolling path maxSize room { f with stream := some s.1, size := f.size + more.length } s.2
        s.1 ids ∧
      ids.map s.2.content = ids.map fs.content := by
  intro s
  have content : s.2.content stream.file = fs.content stream.file ++ bytes :=
    (content_setContent h.known _).trans (h.atEnd.place bytes)
  have atEnd : s.1.position.AtEnd (s.2.content stream.file) := content ▸ h.atEnd.advance bytes
  have length : s.2.contents.length = fs.contents.length := length_contents_setContent fs _ _
  refine ⟨h.extend rfl (h.stands.setContent _ _) length atEnd settled, ?_⟩
  apply List.map_congr_left
  intro id member
  exact content_setContent_of_ne (h.others id member).1.symm _

theorem writeLine (h : Rolling path maxSize room f fs stream ids) (line : Bytes) :
    let s := stream.writeLine line fs
    Rolling path maxSize room
        { f with stream := some s.1, size := f.size + (line ++ [0x0A]).length } s.2 s.1 ids ∧
      s.1.settled s.2 = stream.settled fs ++ (line ++ [0x0A]) ∧
      ids.map s.2.content = ids.map fs.content := by
  intro s
  have settled : s.1.settled s.2 = stream.settled fs ++ (line ++ [0x0A]) := by
    rw [h.settled_eq, BufferedFile.settled_writeLine h.known, h.atEnd.place]
    simp only [List.append_assoc]
  by_cases held : (stream.pending ++ line).length < BufferedFile.capacity
  · have same : s = ({ stream with pending := stream.pending ++ line ++ [0x0A] }, fs) := by
      simp only [s, BufferedFile.writeLine, held, if_true]
    rw [same] at settled ⊢
    exact ⟨h.extend rfl h.stands rfl h.atEnd settled, settled, rfl⟩
  · have same : s = { stream with pending := [0x0A] }.pass (stream.pending ++ line) fs := by
      simp only [s, BufferedFile.writeLine, held, if_false]
    rw [same] at settled ⊢
    obtain ⟨rolling, others⟩ := h.pass settled
    exact ⟨rolling, settled, others⟩

theorem flush (h : Rolling path maxSize room f fs stream ids) :
    Rolling path maxSize room (f.flush fs).1 (f.flush fs).2 (stream.flush fs).1 ids ∧
      (stream.flush fs).1.settled (f.flush fs).2 = stream.settled fs ∧
      (f.flush fs).2.content stream.file = stream.settled fs ∧
      ids.map (f.flush fs).2.content = ids.map fs.content := by
  have settled := BufferedFile.settled_flush h.known
  have nothing_more := settled.trans (List.append_nil _).symm
  obtain ⟨rolling, others⟩ := h.pass nothing_more
  have same : f.flush fs =
      ({ f with stream := some (stream.flush fs).1 }, (stream.flush fs).2) := by
    rw [RollingFile.flush, h.opened]
  rw [same]
  exact ⟨rolling, settled, BufferedFile.content_flush h.known, others⟩

/-- A log file that is empty, before anything is written to it. -/
theorem of_empty {id : FileId} (limits : f.path = path ∧ f.maxSize = maxSize)
    (stands : Stands fs path f.maxFiles room (some id) fun k => ids[k]?)
    (few : ids.length ≤ room) (known : id < fs.contents.length)
    (others : ∀ i ∈ ids, i ≠ id ∧ i < fs.contents.length) (empty : fs.content id = []) :
    let stream : BufferedFile := { file := id, position := .offset 0 }
    Rolling path maxSize room { f with stream := some stream, size := 0 } fs stream ids ∧
      stream.settled fs = [] := by
  intro stream
  have settled : stream.settled fs = [] := by simp [BufferedFile.settled, stream, empty]
  refine ⟨?_, settled⟩
  exact
    { limits := limits
      opened := rfl
      stands := stands
      few := few
      known := known
      others := others
      atEnd := .inr (by rw [empty]; rfl)
      size := by rw [settled]; rfl }

theorem create (stands : Stands fs path f.maxFiles room none fun k => ids[k]?)
    (few : ids.length ≤ room) (known : ∀ id ∈ ids, id < fs.contents.length)
    (limits : f.path = path ∧ f.maxSize = maxSize) :
    ∃ stream fs', BufferedFile.create? fs path = some (stream, fs') ∧
      Rolling path maxSize room { f with stream := some stream, size := 0 } fs' stream ids ∧
      stream.settled fs' = [] ∧ ids.map fs'.content = ids.map fs.content := by
  obtain ⟨place, located⟩ := Option.ne_none_iff_exists'.mp stands.located
  have free : fs.nodeAt place = none := (nodeOf?_of_locate? located).symm.trans stands.live
  let id := fs.contents.length
  let fs' := (fs.putFile place []).2.setContent id []
  have created : BufferedFile.create? fs path =
      some ({ file := id, position := .offset 0 }, fs') := by
    rw [BufferedFile.create?, openFile?_of_free located free]
    rfl
  have long : fs'.contents.length = id + 1 :=
    (length_contents_setContent _ _ _).trans (length_contents_putFile fs place [])
  have empty : fs'.content id = [] := content_setContent (known_putFile fs place []) []
  have others : ∀ i ∈ ids, i ≠ id ∧ i < fs'.contents.length := by
    intro i member
    have below := known i member
    exact ⟨ne_of_lt below, by rw [long]; exact Nat.lt_succ_of_lt below⟩
  -- the new file is none of the old ones, so these hold what they held
  have kept : ∀ i ∈ ids, fs'.content i = fs.content i := by
    intro i member
    rw [content_setContent_of_ne (others i member).1.symm, content_putFile (known i member)]
  have inside : id < fs'.contents.length := by rw [long]; exact Nat.lt_succ_self _
  obtain ⟨rolling, settled⟩ := of_empty limits ((stands.putFile located []).setContent id [])
    few inside others empty
  exact ⟨_, fs', created, rolling, settled, List.map_congr_left kept⟩

theorem rotate_without_room (h : Rolling path maxSize 0 f fs stream ids) :
    ∃ stream', Rolling path maxSize 0 (f.rotate fs).1 (f.rotate fs).2 stream' [] ∧
      stream'.settled (f.rotate fs).2 = [] := by
  obtain ⟨flushed, -, -, -⟩ := h.flush
  obtain rfl : ids = [] := List.eq_nil_of_length_eq_zero (Nat.le_zero.mp flushed.few)
  have aside := flushed.stands.setAside_without_room
  have contents := Stands.contents_setAside path (f.flush fs).1.maxFiles (f.flush fs).2
  have same_path := flushed.limits.1
  generalize after : RollingFile.setAside path (f.flush fs).1.maxFiles (f.flush fs).2 = fs₁ at *
  obtain ⟨place, located⟩ := Option.ne_none_iff_exists'.mp aside.located
  have live : fs₁.nodeAt place = some (.file stream.file) :=
    (nodeOf?_of_locate? located).symm.trans aside.live
  let stream' : BufferedFile := { file := stream.file, position := .offset 0 }
  let fs' := fs₁.setContent stream.file []
  have same : f.rotate fs = ({ (f.flush fs).1 with stream := some stream', size := 0 }, fs') := by
    simp only [RollingFile.rotate, close, same_path, after, BufferedFile.create?, openFile?,
      located, live, Option.map_some]
    rfl
  have known : stream.file < fs₁.contents.length := contents ▸ flushed.known
  have inside : stream.file < fs'.contents.length := by rwa [length_contents_setContent]
  obtain ⟨rolling, settled⟩ := of_empty flushed.limits (aside.setContent stream.file [])
    (Nat.zero_le _) inside (fun i member => by cases member) (content_setContent known [])
  rw [same]
  exact ⟨stream', rolling, settled⟩

theorem rotate (h : Rolling path maxSize room f fs stream ids) :
    ∃ stream' ids', Rolling path maxSize room (f.rotate fs).1 (f.rotate fs).2 stream' ids' ∧
      stream'.settled (f.rotate fs).2 = [] ∧
      ids'.map (f.rotate fs).2.content =
        (stream.settled fs :: ids.map fs.content).take room := by
  rcases Nat.eq_zero_or_pos room with rfl | pos
  · obtain ⟨stream', rolling, new⟩ := h.rotate_without_room
    exact ⟨stream', [], rolling, new, rfl⟩
  obtain ⟨flushed, -, whole, others⟩ := h.flush
  have aside := flushed.stands.setAside pos h.few
  have contents := Stands.contents_setAside path (f.flush fs).1.maxFiles (f.flush fs).2
  have same_path := flushed.limits.1
  generalize after : RollingFile.setAside path (f.flush fs).1.maxFiles (f.flush fs).2 = fs₁ at *
  have few : ((stream.file :: ids).take room).length ≤ room := by
    rw [List.length_take]
    exact Nat.min_le_left _ _
  have known : ∀ i ∈ (stream.file :: ids).take room, i < fs₁.contents.length := by
    intro i member
    rw [contents]
    rcases List.mem_cons.mp (List.mem_of_mem_take member) with rfl | member
    · exact flushed.known
    · exact (flushed.others i member).2
  obtain ⟨stream', fs₂, created, rolling, new, kept⟩ := create aside few known flushed.limits
  have same : f.rotate fs = ({ (f.flush fs).1 with stream := some stream', size := 0 }, fs₂) := by
    simp only [RollingFile.rotate, close, same_path, after, created]
  have aside_content : fs₁.content = (f.flush fs).2.content := by
    funext i
    exact congrArg (fun contents => (contents[i]?).getD []) contents
  rw [same]
  refine ⟨stream', _, rolling, new, kept.trans ?_⟩
  rw [aside_content, List.map_take, List.map_cons, others]
  exact congrArg (fun live => (live :: ids.map fs.content).take room) whole

end Rolling

def Holds (path : String) (maxSize room : Nat) (s : RollingFile × FileSystem) (live : Bytes)
    (old : List Bytes) : Prop :=
  ∃ stream ids, Rolling path maxSize room s.1 s.2 stream ids ∧ stream.settled s.2 = live ∧
    ids.map s.2.content = old

namespace Holds

variable {path : String} {maxSize room : Nat} {s : RollingFile × FileSystem} {live : Bytes}
  {old : List Bytes}

theorem overflows_iff (h : Holds path maxSize room s live old) (limited : maxSize ≠ 0)
    (line : String) : s.1.Overflows line ↔ maxSize < (live ++ lineBytes line).length := by
  obtain ⟨stream, ids, rolling, rfl, -⟩ := h
  simp [Overflows, rolling.opened, rolling.limits.2, limited, rolling.size]

theorem write_eq (h : Holds path maxSize room s live old) (line : String) :
    ∃ s', s.1.write line s.2 = (if s.1.Overflows line then s'.1.rotate s'.2 else s') ∧
      Holds path maxSize room s' (live ++ lineBytes line) old := by
  obtain ⟨stream, ids, rolling, rfl, rfl⟩ := h
  obtain ⟨rolling', settled, others⟩ := rolling.writeLine line.toUTF8.toList
  have count : (lineBytes line).length = line.toUTF8.toList.length + 1 := List.length_append
  rw [List.length_append, List.length_singleton] at rolling'
  refine ⟨(_, _), ?_, _, ids, rolling', settled, others⟩
  simp only [RollingFile.write, rolling.opened, Overflows, count, ne_eq, reduceCtorEq,
    not_false_eq_true, true_and]
  rfl

theorem write (h : Holds path maxSize room s live old) (line : String) :
    (¬ s.1.Overflows line →
      Holds path maxSize room (s.1.write line s.2) (live ++ lineBytes line) old) ∧
    (s.1.Overflows line →
      Holds path maxSize room (s.1.write line s.2) []
        (((live ++ lineBytes line) :: old).take room)) := by
  obtain ⟨s', written, h'⟩ := h.write_eq line
  rw [written]
  constructor
  · intro fits
    rw [if_neg fits]
    exact h'
  · intro full
    rw [if_pos full]
    obtain ⟨stream, ids, rolling, settled, rfl⟩ := h'
    obtain ⟨stream', ids', rolled, empty, kept⟩ := rolling.rotate
    rw [settled] at kept
    exact ⟨stream', ids', rolled, empty, kept⟩

theorem write_adds (h : Holds path maxSize room s live old) (line : String) :
    ∃ live' old' dropped, Holds path maxSize room (s.1.write line s.2) live' old' ∧
      old.reverse.flatten ++ live ++ lineBytes line =
        dropped ++ (old'.reverse.flatten ++ live') := by
  obtain ⟨stays, sets_aside⟩ := h.write line
  by_cases full : s.1.Overflows line
  · refine ⟨[], _, (((live ++ lineBytes line) :: old).drop room).reverse.flatten,
      sets_aside full, ?_⟩
    rw [List.append_nil, ← List.flatten_append, ← List.reverse_append, List.take_append_drop]
    simp
  · exact ⟨live ++ lineBytes line, old, [], stays full, List.append_assoc _ _ _⟩

theorem writeAll_adds (h : Holds path maxSize room s live old) (lines : List String) :
    ∃ live' old' dropped, Holds path maxSize room (writeAll lines s) live' old' ∧
      old.reverse.flatten ++ live ++ (lines.map lineBytes).flatten =
        dropped ++ (old'.reverse.flatten ++ live') := by
  induction lines generalizing s live old with
  | nil => exact ⟨live, old, [], h, List.append_nil _⟩
  | cons line lines ih =>
    obtain ⟨live₁, old₁, dropped₁, held, first⟩ := h.write_adds line
    obtain ⟨live₂, old₂, dropped₂, held', others⟩ := ih held
    refine ⟨live₂, old₂, dropped₁ ++ dropped₂, held', ?_⟩
    rw [List.map_cons, List.flatten_cons, ← List.append_assoc, first, List.append_assoc,
      others, List.append_assoc]

theorem flush (h : Holds path maxSize room s live old) :
    Holds path maxSize room (s.1.flush s.2) live old ∧
      (s.1.flush s.2).2.read? path = some live := by
  obtain ⟨stream, ids, rolling, rfl, rfl⟩ := h
  obtain ⟨flushed, settled, content, others⟩ := rolling.flush
  refine ⟨⟨_, ids, flushed, settled, others⟩, ?_⟩
  rw [read?_of_nodeOf? flushed.stands.live]
  exact congrArg some content

end Holds

/-- What is found under the names of the files. The log file is on the disk but for what waits in
the stream. -/
structure Shown (path : String) (s : RollingFile × FileSystem) (live : Bytes) (old : List Bytes) :
    Prop where
  numbered : ∀ k, s.2.read? (numbered path (k + 1)) = old[k]?
  absent : ∀ k, old.length ≤ k → s.2.nodeOf? (RollingFile.numbered path (k + 1)) = none
  onDisk : ∃ stream disk, s.1.stream = some stream ∧ s.2.read? path = some disk ∧
    disk ++ stream.pending = live
  size : s.1.size = live.length

theorem Holds.shown {path : String} {maxSize room : Nat} {s : RollingFile × FileSystem}
    {live : Bytes} {old : List Bytes} (h : Holds path maxSize room s live old) :
    Shown path s live old := by
  obtain ⟨stream, ids, rolling, rfl, rfl⟩ := h
  refine ⟨?_, ?_, ?_, rolling.size⟩
  · intro k
    have stands := rolling.stands.old k
    rw [List.getElem?_map]
    cases found : ids[k]? with
    | none =>
      rw [found] at stands
      simp [read?, stands]
    | some id =>
      rw [found] at stands
      exact read?_of_nodeOf? stands
  · intro k beyond
    rw [List.length_map] at beyond
    rw [rolling.stands.old k, List.getElem?_eq_none beyond]
    rfl
  · exact ⟨stream, _, rolling.opened, read?_of_nodeOf? rolling.stands.live,
      rolling.settled_eq.symm⟩

/-- How what has been written is divided: dropped, set aside (the newest file first) and in the log
file. Every part consists of whole lines, after what was there at the start. -/
structure History (maxSize room : Nat) (start : Bytes) (lines : List String) (rotated : Nat)
    (dropped : List Bytes) (kept : List (List Bytes)) (live : List Bytes) : Prop where
  pieces : start :: lines.map lineBytes = dropped ++ kept.reverse.flatten ++ live
  number : kept.length = min room rotated
  bounded : lines ≠ [] ∨ start.length ≤ maxSize → live.flatten.length ≤ maxSize
  full : start.length ≤ maxSize → ∀ file ∈ kept, ∃ front line, line ∈ lines ∧
    file = front ++ [lineBytes line] ∧ front.flatten.length ≤ maxSize ∧
      maxSize < file.flatten.length

namespace History

variable {maxSize room rotated : Nat} {start : Bytes} {lines : List String}
  {dropped live : List Bytes} {kept : List (List Bytes)}

theorem append (h : History maxSize room start lines rotated dropped kept live) (line : String)
    (fits : ¬ maxSize < (live.flatten ++ lineBytes line).length) :
    History maxSize room start (lines ++ [line]) rotated dropped kept
      (live ++ [lineBytes line]) := by
  refine ⟨?_, h.number, ?_, ?_⟩
  · rw [List.map_append, ← List.cons_append, h.pieces, List.append_assoc]
    rfl
  · intro _
    rw [List.flatten_append, List.flatten_singleton]
    exact Nat.le_of_not_lt fits
  · intro short file member
    obtain ⟨front, last, written, rest⟩ := h.full short file member
    exact ⟨front, last, List.mem_append_left _ written, rest⟩

theorem rotate (h : History maxSize room start lines rotated dropped kept live) (line : String)
    (long : maxSize < (live.flatten ++ lineBytes line).length) :
    ∃ dropped', History maxSize room start (lines ++ [line]) (rotated + 1) dropped'
      (((live ++ [lineBytes line]) :: kept).take room) [] := by
  generalize whole : (live ++ [lineBytes line]) :: kept = files
  refine ⟨dropped ++ (files.drop room).reverse.flatten, ?_, ?_, ?_, ?_⟩
  · calc
      start :: (lines ++ [line]).map lineBytes =
          dropped ++ kept.reverse.flatten ++ live ++ [lineBytes line] := by
        rw [List.map_append, ← List.cons_append, h.pieces]
        rfl
      _ = dropped ++ files.reverse.flatten := by simp [← whole]
      _ = dropped ++ ((files.drop room).reverse.flatten ++ (files.take room).reverse.flatten) := by
        rw [← List.flatten_append, ← List.reverse_append, List.take_append_drop]
      _ = _ := by rw [List.append_nil, List.append_assoc]
  · rw [List.length_take, ← whole, List.length_cons, h.number]
    omega
  · intro _
    exact Nat.zero_le _
  · intro short file member
    have member := List.mem_of_mem_take member
    rw [← whole] at member
    rcases List.mem_cons.mp member with rfl | member
    · refine ⟨live, line, by simp, rfl, h.bounded (.inr short), ?_⟩
      rwa [List.flatten_append, List.flatten_singleton]
    · obtain ⟨front, last, written, rest⟩ := h.full short file member
      exact ⟨front, last, List.mem_append_left _ written, rest⟩

end History

theorem Holds.writeAll {path : String} {maxSize room : Nat} (limited : maxSize ≠ 0)
    {s : RollingFile × FileSystem} {start : Bytes} {lines : List String} {rotated : Nat}
    {dropped live : List Bytes} {kept : List (List Bytes)}
    (h : Holds path maxSize room s live.flatten (kept.map List.flatten))
    (history : History maxSize room start lines rotated dropped kept live) (more : List String) :
    ∃ dropped live kept,
      Holds path maxSize room (writeAll more s) live.flatten (kept.map List.flatten) ∧
      History maxSize room start (lines ++ more) (rotated + rotations more s) dropped kept
        live := by
  -- what the files hold and how that came about are carried along together
  induction more generalizing s lines rotated dropped kept live with
  | nil => exact ⟨dropped, live, kept, h, by simpa [rotations] using history⟩
  | cons line more ih =>
    obtain ⟨stays, sets_aside⟩ := h.write line
    have overflows := h.overflows_iff limited line
    have longer : live.flatten ++ lineBytes line = (live ++ [lineBytes line]).flatten := by simp
    by_cases full : s.1.Overflows line
    · obtain ⟨dropped', history'⟩ := history.rotate line (overflows.mp full)
      have held := sets_aside full
      rw [longer, ← List.map_cons, ← List.map_take] at held
      obtain ⟨dropped, live, kept, held', history'⟩ := ih held history'
      refine ⟨dropped, live, kept, held', ?_⟩
      simpa [rotations, full, Nat.add_assoc] using history'
    · have history' := history.append line (fun long => full (overflows.mpr long))
      have held := stays full
      rw [longer] at held
      obtain ⟨dropped, live, kept, held', history'⟩ := ih held history'
      refine ⟨dropped, live, kept, held', ?_⟩
      simpa [rotations, full] using history'

/-- A path that a log file can be kept under: it leads to a place where the log file stands or can
stand, and nothing stands under the log file's name with a number. -/
structure Ready (fs : FileSystem) (path : String) (start : Bytes) : Prop where
  noNul : '\x00' ∉ path.toList
  sound : fs.Sound
  located : fs.locate? path ≠ none
  holds : fs.read? path = some start ∨ fs.nodeOf? path = none ∧ start = []
  fresh : ∀ k, fs.nodeOf? (numbered path (k + 1)) = none

namespace Ready

variable {fs : FileSystem} {path : String} {start : Bytes}

theorem of_alone (noNul : '\x00' ∉ path.toList) (sound : fs.Sound) {place : Place}
    (located : fs.locate? path = some place)
    (holds : fs.read? path = some start ∨ fs.nodeOf? path = none ∧ start = [])
    (alone : ∀ q, q ≠ [] → q ≠ place → fs.nodeAt q = none) : Ready fs path start := by
  have nonempty := (walk_of_locate? noNul located).1
  refine ⟨noNul, sound, by simp [located], holds, fun k => ?_⟩
  obtain ⟨folder, last, -, leads⟩ := exists_place fs nonempty noNul
  cases at_k : fs.locate? (numbered path (k + 1)) with
  | none =>
    rw [nodeOf?, at_k]
    rfl
  | some q =>
    have other : q ≠ place := by
      rintro rfl
      exact live_ne_numbered noNul located at_k
    obtain ⟨d, -, rfl⟩ := leads (k + 1) q at_k
    exact (nodeOf?_of_locate? at_k).trans (alone _ (by simp) other)

theorem of_nodes_nil (bare : fs.nodes = []) (noNul : '\x00' ∉ path.toList) {place : Place}
    (located : fs.locate? path = some place) (named : place ≠ []) : Ready fs path [] := by
  have free {q : Place} (named : q ≠ []) : fs.nodeAt q = none := by
    rw [nodeAt, if_neg named, bare]
    rfl
  exact .of_alone noNul (sound_of_nodes (by simp [bare])) located
    (.inr ⟨(nodeOf?_of_locate? located).trans (free named), rfl⟩) fun _ named _ => free named

theorem openFile? (h : Ready fs path start) (maxFiles : Nat) :
    ∃ id fs', fs.openFile? path = some (id, fs') ∧ id < fs'.contents.length ∧
      fs'.content id = start ∧
      Stands fs' path maxFiles (room fs path maxFiles) (some id)
        fun k => ([] : List FileId)[k]? := by
  obtain ⟨place, located⟩ := Option.ne_none_iff_exists'.mp h.located
  rcases h.holds with read | ⟨free, rfl⟩
  · obtain ⟨id, stands, content⟩ := read?_eq_some read
    have at_place : fs.nodeAt place = some (.file id) := nodeOf?_of_locate? located ▸ stands
    refine ⟨id, fs, ?_, h.sound place id at_place, content, ?_⟩
    · simp only [FileSystem.openFile?, located, at_place]
    · exact ⟨h.noNul, h.located, rfl, stands, h.fresh⟩
  · have at_place : fs.nodeAt place = none := nodeOf?_of_locate? located ▸ free
    have empty : Stands fs path maxFiles (room fs path maxFiles) none
        fun k => ([] : List FileId)[k]? :=
      ⟨h.noNul, h.located, rfl, free, h.fresh⟩
    exact ⟨_, (fs.putFile place []).2, openFile?_of_free located at_place,
      known_putFile fs place [], content_putFile_self fs place [], empty.putFile located []⟩

theorem openAt (h : Ready fs path start) (maxSize maxFiles : Nat) :
    Holds path maxSize (room fs path maxFiles) (openAt fs path maxSize maxFiles) start [] := by
  obtain ⟨id, fs', opened, known, content, stands⟩ := h.openFile? maxFiles
  let stream : BufferedFile := { file := id, position := .atEnd }
  have same : RollingFile.openAt fs path maxSize maxFiles =
      ({ path, maxSize, maxFiles, stream := some stream, size := start.length }, fs') := by
    simp only [RollingFile.openAt, BufferedFile.append?, opened, Option.map_some, ← content]
    rfl
  have settled : stream.settled fs' = start := (List.append_nil _).trans content
  rw [same]
  refine ⟨stream, [], ?_, settled, rfl⟩
  exact
    { limits := ⟨rfl, rfl⟩
      opened := rfl
      stands := stands
      few := Nat.zero_le _
      known := known
      others := fun id member => by cases member
      atEnd := .inl rfl
      size := by rw [settled] }

end Ready

/-- All that is on the disk, from the highest number down to the log file; what is missing holds
nothing. -/
def allContents (fs : FileSystem) (path : String) (maxFiles : Nat) : Bytes :=
  ((List.range maxFiles).reverse.flatMap fun k => (fs.read? (numbered path (k + 1))).getD []) ++
    (fs.read? path).getD []

theorem flatMap_range_getD {xs : List Bytes} {n : Nat} (few : xs.length ≤ n) :
    ((List.range n).reverse.flatMap fun k => xs[k]?.getD []) = xs.reverse.flatten := by
  have padded : (List.range n).map (fun k => xs[k]?.getD []) =
      xs ++ List.replicate (n - xs.length) [] := by
    apply List.ext_getElem?
    intro k
    rw [List.getElem?_map, List.getElem?_append, List.getElem?_replicate]
    by_cases inside : k < xs.length
    · simp [inside, Nat.lt_of_lt_of_le inside few]
    · by_cases below : k < n
      · simp [inside, below]
        omega
      · simp [inside, below]
        omega
  rw [List.flatMap_def, List.map_reverse, padded, List.reverse_append, List.flatten_append]
  simp

theorem Shown.allContents_eq {path : String} {s : RollingFile × FileSystem} {live : Bytes}
    {old : List Bytes} {maxFiles : Nat} (h : Shown path s live old) (few : old.length ≤ maxFiles)
    {disk : Bytes} (read : s.2.read? path = some disk) :
    allContents s.2 path maxFiles = old.reverse.flatten ++ disk := by
  simp only [allContents, h.numbered, flatMap_range_getD few, read, Option.getD_some]

/-- However many lines are written, the log loses its oldest files only. What has been written is
what was dropped, what stands under the numbers from the highest one down, and what the log file
holds with the bytes that wait in its stream; there are as many numbered files as there were
rotations, as far as there is room for them; the log file stays within its size; and a file is set
aside with the first line that is too much. Flushing brings to the disk what is missing there. -/
theorem writeAll_loses_oldest {fs : FileSystem} {path : String} {maxSize : Nat} {start : Bytes}
    (ready : Ready fs path start) (limited : 1 ≤ maxSize) (maxFiles : Nat)
    (lines : List String) :
    let first := openAt fs path maxSize maxFiles
    let s := writeAll lines first
    let flushed := s.1.flush s.2
    let written := start ++ (lines.map lineBytes).flatten
    ∃ dropped live kept,
      History maxSize (room fs path maxFiles) start lines (rotations lines first) dropped kept
        live ∧
      Shown path s live.flatten (kept.map List.flatten) ∧
      Shown path flushed live.flatten (kept.map List.flatten) ∧
      flushed.2.read? path = some live.flatten ∧
      (∃ stream, s.1.stream = some stream ∧
        allContents s.2 path maxFiles ++ stream.pending <:+ written) ∧
      allContents flushed.2 path maxFiles <:+ written ∧
      room fs path maxFiles ≤ maxFiles ∧
      ((∀ k < maxFiles, fs.locate? (numbered path (k + 1)) ≠ none) →
        room fs path maxFiles = maxFiles) := by
  intro first s flushed written
  have opening : History maxSize (room fs path maxFiles) start [] 0 [] [] [start] := by
    refine ⟨rfl, by simp, ?_, ?_⟩
    · intro short
      simpa using short
    · intro _ file member
      cases member
  have held := ready.openAt maxSize maxFiles
  have own : start = [start].flatten := by simp
  rw [own] at held
  obtain ⟨dropped, live, kept, holds, history⟩ :=
    Holds.writeAll (Nat.ne_of_gt limited) held opening lines
  rw [List.nil_append, Nat.zero_add] at history
  obtain ⟨holds', read⟩ := holds.flush
  have le := room_le fs path maxFiles
  have few : (kept.map List.flatten).length ≤ maxFiles := by
    rw [List.length_map, history.number]
    exact (Nat.min_le_left _ _).trans le
  have whole : dropped.flatten ++ ((kept.map List.flatten).reverse.flatten ++ live.flatten) =
      written := by
    have pieces := congrArg List.flatten history.pieces
    rw [List.flatten_cons] at pieces
    simp only [written, pieces, List.flatten_append, List.flatten_flatten, List.map_reverse,
      List.append_assoc]
  refine ⟨dropped, live, kept, history, holds.shown, holds'.shown, read, ?_, ?_, le,
    room_of_places⟩
  · obtain ⟨stream, disk, opened, on_disk, waiting⟩ := holds.shown.onDisk
    refine ⟨stream, opened, dropped.flatten, ?_⟩
    rw [holds.shown.allContents_eq few on_disk, List.append_assoc, waiting]
    exact whole
  · refine ⟨dropped.flatten, ?_⟩
    rw [holds'.shown.allContents_eq few read]
    exact whole

theorem ready_alone (start : Bytes) :
    Ready { nodes := [(["app.log"], .file 0)], contents := [start], current := [] } "app.log"
      start := by
  let fs : FileSystem :=
    { nodes := [(["app.log"], .file 0)], contents := [start], current := [] }
  have located : fs.locate? "app.log" = some ["app.log"] := by
    rw [locate?_name rfl (by decide) (by decide) (by decide),
      if_pos (by decide)]
    rfl
  have stands : fs.nodeOf? "app.log" = some (.file 0) := (nodeOf?_of_locate? located).trans rfl
  have read : fs.read? "app.log" = some start := read?_of_nodeOf? stands
  refine .of_alone (by decide) (sound_of_nodes (by simp)) located (.inl read) ?_
  intro q named other
  rw [nodeAt, if_neg named, lookup_cons_of_ne other]
  rfl

/-- With at most six bytes in the log file and two files kept, the file that held `old` is dropped
at the third rotation. The last line waits in the stream until it is flushed. -/
theorem writeAll_loses_oldest_third :
    let fs : FileSystem :=
      { nodes := [(["app.log"], .file 0)], contents := [lineBytes "old"], current := [] }
    let lines := ["one", "two", "three", "four", "five", "six"]
    let s := writeAll lines (openAt fs "app.log" 6 2)
    let flushed := s.1.flush s.2
    Ready fs "app.log" (lineBytes "old") ∧ room fs "app.log" 2 = 2 ∧
      allContents flushed.2 "app.log" 2 <:+ lineBytes "old" ++ (lines.map lineBytes).flatten ∧
      flushed.2.nodeOf? (numbered "app.log" 3) = none ∧
      flushed.2.read? "app.log.2" = some (lineBytes "two" ++ lineBytes "three") ∧
      flushed.2.read? "app.log.1" = some (lineBytes "four" ++ lineBytes "five") ∧
      s.2.read? "app.log" = some [] ∧ flushed.2.read? "app.log" = some (lineBytes "six") := by
  intro fs lines s flushed
  have ready : Ready fs "app.log" (lineBytes "old") := ready_alone _
  obtain ⟨dropped, live, kept, history, -, shown, -, -, suffix, -, places⟩ :=
    writeAll_loses_oldest ready (show 1 ≤ 6 by decide) 2 lines
  have fits : room fs "app.log" 2 = 2 := places (by decide +kernel)
  have three : rotations lines (openAt fs "app.log" 6 2) = 3 := by decide +kernel
  have two : (kept.map List.flatten).length = 2 := by
    rw [List.length_map, history.number, fits, three]
    rfl
  exact ⟨ready, fits, suffix, shown.absent 2 two.le, by decide +kernel, by decide +kernel,
    by decide +kernel, by decide +kernel⟩

def longName : String := String.ofList (List.replicate 254 'a')

theorem utf8ByteSize_longName : longName.utf8ByteSize = 254 := by
  have letters (n : Nat) : (String.ofList (List.replicate n 'a')).utf8ByteSize = n := by
    induction n with
    | zero => rfl
    | succ n ih =>
      have one : 'a'.utf8Size = 1 := rfl
      rw [List.replicate_succ, String.ofList_cons, String.utf8ByteSize_append, ih,
        String.utf8ByteSize_singleton, one, Nat.add_comm]
  exact letters 254

theorem not_mem_longName {c : Char} (other : c ≠ 'a') : c ∉ longName.toList := by
  have letters (n : Nat) : c ∉ (String.ofList (List.replicate n 'a')).toList := by
    rw [String.toList_ofList]
    exact fun member => other (List.eq_of_mem_replicate member)
  exact letters 254

theorem locate?_longName :
    FileSystem.locate? { current := [] } longName = some [longName] := by
  have size := utf8ByteSize_longName
  rw [locate?_name rfl (not_mem_longName (by decide)) (not_mem_longName (by decide)) (by omega),
    size]
  rfl

theorem room_longName (maxFiles : Nat) : room { current := [] } longName maxFiles = 0 := by
  have text : (numbered longName 1).toList = longName.toList ++ ['.', '1'] := by
    rw [numbered, String.toList_append, String.toList_append, List.append_assoc]
    rfl
  have size : (numbered longName 1).utf8ByteSize = 256 := by
    rw [numbered, String.utf8ByteSize_append, String.utf8ByteSize_append, utf8ByteSize_longName]
    rfl
  have free {c : Char} (other : c ≠ 'a') (behind : c ∉ ['.', '1']) :
      c ∉ (numbered longName 1).toList := by
    rw [text, List.mem_append]
    exact not_or.mpr ⟨not_mem_longName other, behind⟩
  by_contra some_room
  apply locate?_of_lt_room (Nat.pos_of_ne_zero some_room)
  rw [Nat.zero_add, locate?_name rfl (free (by decide) (by decide)) (free (by decide) (by decide))
    (by omega), size]
  rfl

theorem lost_without_room {fs : FileSystem} {path : String} (ready : Ready fs path [])
    {maxFiles : Nat} (no_room : room fs path maxFiles = 0) {maxSize : Nat} {line next : String}
    (fits : (lineBytes line).length ≤ maxSize)
    (full : maxSize < (lineBytes line ++ lineBytes next).length) :
    let first := openAt fs path maxSize maxFiles
    let s := writeAll [line, next] first
    rotations [line, next] first = 1 ∧ s.2.nodeOf? (numbered path 1) = none ∧
      s.2.read? path = some [] := by
  intro first s
  have limited : maxSize ≠ 0 := by
    rintro rfl
    simp [lineBytes] at fits
  have opened := ready.openAt maxSize maxFiles
  rw [no_room] at opened
  have stays : ¬ first.1.Overflows line := by
    rw [opened.overflows_iff limited]
    exact Nat.not_lt.mpr fits
  have held := (opened.write line).1 stays
  have overflows : (first.1.write line first.2).1.Overflows next :=
    (held.overflows_iff limited next).mpr full
  have emptied : Holds path maxSize 0 s [] [] := (held.write next).2 overflows
  have shown := emptied.shown
  obtain ⟨stream, disk, -, read, rest⟩ := shown.onDisk
  refine ⟨?_, shown.absent 0 (Nat.zero_le _), ?_⟩
  · simp only [rotations, first, stays, overflows, if_false, if_true]
  · rw [read, (List.append_eq_nil_iff.mp rest).1]

/-- The disk alone does not show it: a line that waits in the stream is missing there, while the
size counts it. And where no number fits behind the name of the log file, what should have been set
aside is lost. -/
theorem line_missing_on_disk :
    let fs : FileSystem :=
      { nodes := [(["app.log"], .file 0)], contents := [lineBytes "old"], current := [] }
    let s := writeAll ["one"] (openAt fs "app.log" 100 2)
    let first := openAt { current := [] } longName 6 2
    let s' := writeAll ["one", "two"] first
    (Ready fs "app.log" (lineBytes "old") ∧ s.2.read? "app.log" = some (lineBytes "old") ∧
      s.1.size = 8 ∧
      ¬ allContents s.2 "app.log" 2 <:+ lineBytes "old" ++ lineBytes "one") ∧
    Ready { current := [] } longName [] ∧ rotations ["one", "two"] first = 1 ∧
      s'.2.nodeOf? (numbered longName 1) = none ∧ s'.2.read? longName = some [] := by
  have ready : Ready { current := [] } longName [] :=
    .of_nodes_nil rfl (not_mem_longName (by decide)) locate?_longName (List.cons_ne_nil _ _)
  refine ⟨⟨ready_alone _, ?_, ?_, ?_⟩, ready, ?_⟩
  · decide +kernel
  · decide +kernel
  · decide +kernel
  · exact lost_without_room ready (room_longName 2) (by decide +kernel) (by decide +kernel)

end Log.RollingFile

end WireRecords
