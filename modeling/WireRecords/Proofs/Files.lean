import WireRecords.BufferedFile

/-!
# One place at a time

Where a path leads depends on the directories alone. Files come and go without a directory changing,
so whatever is done to one file, every path leads to where it led before, and what stands at other
places and what other files hold stays as it is.
-/

namespace WireRecords.FileSystem

variable {fs fs' fs'' : FileSystem}

theorem lookup_cons_of_ne {place q : Place} (h : q ≠ place) (node : Node)
    (entries : List (Place × Node)) :
    ((place, node) :: entries).lookup q = entries.lookup q := by
  rw [List.lookup_cons, beq_eq_false_iff_ne.mpr h]

theorem lookup_filter_ne (entries : List (Place × Node)) (place q : Place) :
    (entries.filter fun entry => entry.1 ≠ place).lookup q =
      if q = place then none else entries.lookup q := by
  induction entries with
  | nil => simp
  | cons entry entries ih =>
    obtain ⟨p, node⟩ := entry
    by_cases cleared : p = place
    · rw [List.filter_cons_of_neg (by simp [cleared]), ih, cleared]
      by_cases same : q = place
      · rw [if_pos same, if_pos same]
      · rw [if_neg same, if_neg same, lookup_cons_of_ne same]
    · rw [List.filter_cons_of_pos (by simp [cleared])]
      by_cases same : q = p
      · rw [if_neg (same ▸ cleared), same, List.lookup_cons_self, List.lookup_cons_self]
      · rw [lookup_cons_of_ne same, lookup_cons_of_ne same, ih]

theorem nodeAt_clear {place : Place} (h : place ≠ []) (q : Place) :
    (fs.clear place).nodeAt q = if q = place then none else fs.nodeAt q := by
  by_cases root : q = []
  · subst root
    rw [if_neg (Ne.symm h)]
    rfl
  · simp only [nodeAt, root, if_false, clear]
    exact lookup_filter_ne fs.nodes place q

theorem nodeAt_put {place : Place} (h : place ≠ []) (node : Node) (q : Place) :
    (fs.put place node).nodeAt q = if q = place then some node else fs.nodeAt q := by
  by_cases same : q = place
  · subst same
    simp [nodeAt, put, h]
  · have cleared : (fs.clear place).nodeAt q = _ := nodeAt_clear h q
    rw [if_neg same] at cleared ⊢
    rw [← cleared]
    simp only [nodeAt, put, lookup_cons_of_ne same]

theorem ne_nil_of_nodeAt {place : Place} (h : fs.nodeAt place ≠ some .directory) : place ≠ [] := by
  rintro rfl
  exact h rfl

/-- The same directories, so every path leads to the same place. -/
structure SameDirectories (fs fs' : FileSystem) : Prop where
  current : fs'.current = fs.current
  directory : ∀ place, fs'.nodeAt place = some .directory ↔ fs.nodeAt place = some .directory

namespace SameDirectories

theorem refl (fs : FileSystem) : fs.SameDirectories fs := ⟨rfl, fun _ => Iff.rfl⟩

theorem trans (h : fs.SameDirectories fs') (h' : fs'.SameDirectories fs'') :
    fs.SameDirectories fs'' :=
  ⟨h'.current.trans h.current, fun place => (h'.directory place).trans (h.directory place)⟩

theorem walk (h : fs.SameDirectories fs') (place : Place) (names : List String) :
    fs'.walk place names = fs.walk place names := by
  induction names generalizing place with
  | nil => rw [FileSystem.walk, FileSystem.walk]
  | cons name names ih => simp only [FileSystem.walk, h.directory place, ih]

theorem locate? (h : fs.SameDirectories fs') (path : String) :
    fs'.locate? path = fs.locate? path := by
  simp only [FileSystem.locate?, h.walk, h.current]

end SameDirectories

theorem sameDirectories_clear {place : Place} (h : fs.nodeAt place ≠ some .directory) :
    fs.SameDirectories (fs.clear place) := by
  refine ⟨rfl, fun q => ?_⟩
  rw [nodeAt_clear (ne_nil_of_nodeAt h)]
  by_cases same : q = place
  · subst same
    simp [h]
  · rw [if_neg same]

theorem sameDirectories_put {place : Place} {node : Node} (h : fs.nodeAt place ≠ some .directory)
    (other : node ≠ .directory) : fs.SameDirectories (fs.put place node) := by
  refine ⟨rfl, fun q => ?_⟩
  rw [nodeAt_put (ne_nil_of_nodeAt h)]
  by_cases same : q = place
  · subst same
    simp [h, other]
  · rw [if_neg same]

theorem sameDirectories_setContent (fs : FileSystem) (id : FileId) (content : Bytes) :
    fs.SameDirectories (fs.setContent id content) := ⟨rfl, fun _ => Iff.rfl⟩

theorem nodeOf?_of_locate? {path : String} {place : Place} (h : fs.locate? path = some place) :
    fs.nodeOf? path = fs.nodeAt place := by
  rw [nodeOf?, h, Option.bind_some]

theorem read?_of_nodeOf? {path : String} {id : FileId} (h : fs.nodeOf? path = some (.file id)) :
    fs.read? path = some (fs.content id) := by
  simp only [read?, h]

theorem read?_eq_some {path : String} {content : Bytes} (h : fs.read? path = some content) :
    ∃ id, fs.nodeOf? path = some (.file id) ∧ fs.content id = content := by
  rw [read?] at h
  split at h
  · next id stands => exact ⟨id, stands, Option.some.inj h⟩
  · cases h

theorem nodeAt_putFile {place : Place} (h : place ≠ []) (content : Bytes) (q : Place) :
    (fs.putFile place content).2.nodeAt q =
      if q = place then some (.file fs.contents.length) else fs.nodeAt q :=
  nodeAt_put h (.file fs.contents.length) q

theorem sameDirectories_putFile {place : Place} (h : fs.nodeAt place ≠ some .directory)
    (content : Bytes) : fs.SameDirectories (fs.putFile place content).2 := by
  have same : fs.SameDirectories (fs.newFile content).2 := ⟨rfl, fun _ => Iff.rfl⟩
  exact same.trans (sameDirectories_put h (by simp))

theorem length_contents_putFile (fs : FileSystem) (place : Place) (content : Bytes) :
    (fs.putFile place content).2.contents.length = fs.contents.length + 1 := by
  simp [putFile, newFile, put, clear]

theorem known_putFile (fs : FileSystem) (place : Place) (content : Bytes) :
    fs.contents.length < (fs.putFile place content).2.contents.length := by
  rw [length_contents_putFile]
  exact Nat.lt_succ_self _

theorem content_putFile {id : FileId} (h : id < fs.contents.length) (place : Place)
    (content : Bytes) : (fs.putFile place content).2.content id = fs.content id := by
  simp [FileSystem.content, putFile, newFile, put, clear, List.getElem?_append_left h]

theorem content_putFile_self (fs : FileSystem) (place : Place) (content : Bytes) :
    (fs.putFile place content).2.content fs.contents.length = content := by
  simp [FileSystem.content, putFile, newFile, put, clear]

theorem openFile?_of_free {path : String} {place : Place} (located : fs.locate? path = some place)
    (free : fs.nodeAt place = none) : fs.openFile? path = some (fs.putFile place []) := by
  simp only [openFile?, located, free]

def Sound (fs : FileSystem) : Prop :=
  ∀ place id, fs.nodeAt place = some (.file id) → id < fs.contents.length

theorem sound_of_nodes
    (h : ∀ entry ∈ fs.nodes, ∀ id, entry.2 = .file id → id < fs.contents.length) : fs.Sound := by
  intro place id stands
  rw [nodeAt] at stands
  split at stands
  · cases stands
  · obtain ⟨front, back, nodes, -⟩ := List.lookup_eq_some_iff.mp stands
    exact h (place, .file id) (by simp [nodes]) id rfl

theorem openFile?_cases {path : String} {id : FileId} (h : fs.openFile? path = some (id, fs')) :
    ∃ place, fs.locate? path = some place ∧
      (fs.nodeAt place = some (.file id) ∧ fs' = fs ∨
        fs.nodeAt place = some .device ∧ id = fs.contents.length ∧ fs' = (fs.newFile []).2 ∨
        fs.nodeAt place = none ∧ id = fs.contents.length ∧ fs' = (fs.putFile place []).2) := by
  rw [openFile?] at h
  split at h
  · cases h
  · next place located =>
    refine ⟨place, located, ?_⟩
    split at h
    · cases h
    · next stands =>
      cases h
      exact .inl ⟨stands, rfl⟩
    · next stands =>
      cases h
      exact .inr (.inl ⟨stands, rfl, rfl⟩)
    · next stands =>
      cases h
      exact .inr (.inr ⟨stands, rfl, rfl⟩)

theorem stands_of_openFile? {path : String} {id : FileId} (sound : fs.Sound)
    (noDevice : fs.nodeOf? path ≠ some .device) (h : fs.openFile? path = some (id, fs')) :
    fs'.nodeOf? path = some (.file id) ∧ id < fs'.contents.length := by
  obtain ⟨place, located, ⟨stands, rfl⟩ | ⟨stands, -⟩ | ⟨free, rfl, rfl⟩⟩ := openFile?_cases h
  · exact ⟨(nodeOf?_of_locate? located).trans stands, sound place id stands⟩
  · exact absurd stands (nodeOf?_of_locate? located ▸ noDevice)
  · have outside : fs.nodeAt place ≠ some .directory := by simp [free]
    have located' := ((sameDirectories_putFile outside []).locate? path).trans located
    constructor
    · rw [nodeOf?_of_locate? located', nodeAt_putFile (ne_nil_of_nodeAt outside), if_pos rfl]
    · exact known_putFile fs place []

theorem read?_write? {path : String} {content : Bytes} (sound : fs.Sound)
    (noDevice : fs.nodeOf? path ≠ some .device) (written : fs.write? path content = some fs') :
    fs'.read? path = some content := by
  obtain ⟨id, opened, h, rfl⟩ := exists_openFile?_of_write? written
  obtain ⟨stands, known⟩ := stands_of_openFile? sound noDevice h
  have located := (sameDirectories_setContent opened id content).locate? path
  have stands' : (opened.setContent id content).nodeOf? path = some (.file id) := by
    rw [nodeOf?, located]
    exact stands
  rw [read?_of_nodeOf? stands', content_setContent known]

end WireRecords.FileSystem
