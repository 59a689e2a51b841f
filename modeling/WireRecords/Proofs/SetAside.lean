import Mathlib.Logic.Function.Basic
import WireRecords.Proofs.NumberedPaths

/-!
# Setting files aside

Setting the log file aside moves every numbered file on by one number and drops the one with the
highest number. Files are moved from the highest number down. No file changes its content, and no
directory changes.

A number may make the name of the log file too long. A file cannot be moved to such a name, so there
are only as many numbered files as there are numbers in front of it, and without any the log file
stays where it is.
-/

namespace WireRecords

namespace FileSystem

variable {fs fs' : FileSystem}

theorem move_file {source target : Place} {id : FileId}
    (stands : fs.nodeAt source = some (.file id)) (free : fs.nodeAt target ≠ some .directory) :
    fs.move source target = (fs.clear source).put target (.file id) := by
  unfold move
  rw [stands]
  split
  all_goals simp_all

theorem rename_missing {source : String} (missing : fs.nodeOf? source = none) (target : String) :
    fs.rename source target = fs := by
  unfold rename
  split
  · next p q located _ =>
    have none : fs.nodeAt p = none := (nodeOf?_of_locate? located).symm.trans missing
    rw [move, none]
  · rfl

theorem rename_nowhere {target : String} (nowhere : fs.locate? target = none) (source : String) :
    fs.rename source target = fs := by
  unfold rename
  split
  · next located => cases nowhere.symm.trans located
  · rfl

theorem contents_rename (fs : FileSystem) (source target : String) :
    (fs.rename source target).contents = fs.contents := by
  unfold rename
  split
  · unfold move
    split
    · rfl
    · rfl
    · rfl
    · split <;> rfl
    · rfl
    · rfl
  · rfl

theorem contents_remove (fs : FileSystem) (path : String) :
    (fs.remove path).contents = fs.contents := by
  unfold remove
  split
  · rfl
  · split <;> rfl

end FileSystem

namespace Log.RollingFile

open FileSystem

/-- How many files can be set aside: as many as are kept, unless a number makes a name too long. -/
def room (fs : FileSystem) (path : String) (maxFiles : Nat) : Nat :=
  (List.range maxFiles).findIdx fun k => fs.locate? (numbered path (k + 1)) = none

section Room

variable {fs : FileSystem} {path : String} {maxFiles : Nat}

theorem room_le (fs : FileSystem) (path : String) (maxFiles : Nat) :
    room fs path maxFiles ≤ maxFiles := by
  have le : room fs path maxFiles ≤ (List.range maxFiles).length := List.findIdx_le_length
  rwa [List.length_range] at le

theorem locate?_of_lt_room {k : Nat} (hk : k < room fs path maxFiles) :
    fs.locate? (numbered path (k + 1)) ≠ none := by
  have found := List.not_of_lt_findIdx hk
  simpa using found

theorem locate?_room (h : room fs path maxFiles < maxFiles) :
    fs.locate? (numbered path (room fs path maxFiles + 1)) = none := by
  have inside : room fs path maxFiles < (List.range maxFiles).length := by rwa [List.length_range]
  have found : decide (fs.locate? (numbered path ((List.range maxFiles)[room fs path maxFiles] + 1))
      = none) = true := List.findIdx_getElem (w := inside)
  rw [List.getElem_range] at found
  exact of_decide_eq_true found

theorem room_of_places (places : ∀ k < maxFiles, fs.locate? (numbered path (k + 1)) ≠ none) :
    room fs path maxFiles = maxFiles := by
  have all : room fs path maxFiles = (List.range maxFiles).length :=
    List.findIdx_eq_length_of_false (by simpa using places)
  rwa [List.length_range] at all

end Room

/-- What stands under the name of the log file, and under the name with each number from 1 on. -/
structure Stands (fs : FileSystem) (path : String) (maxFiles room : Nat) (live : Option FileId)
    (old : Nat → Option FileId) : Prop where
  noNul : '\x00' ∉ path.toList
  located : fs.locate? path ≠ none
  room : RollingFile.room fs path maxFiles = room
  live : fs.nodeOf? path = live.map .file
  old : ∀ k, fs.nodeOf? (numbered path (k + 1)) = (old k).map .file

namespace Stands

variable {fs fs' : FileSystem} {path : String} {maxFiles room : Nat} {live : Option FileId}
  {old : Nat → Option FileId}

theorem places (h : Stands fs path maxFiles room live old) {k : Nat} (hk : k < room) :
    fs.locate? (numbered path (k + 1)) ≠ none := locate?_of_lt_room (h.room ▸ hk)

theorem ends (h : Stands fs path maxFiles room live old) (small : room < maxFiles) :
    fs.locate? (numbered path (room + 1)) = none := by
  obtain rfl := h.room
  exact locate?_room small

theorem room_le (h : Stands fs path maxFiles room live old) : room ≤ maxFiles :=
  h.room ▸ RollingFile.room_le fs path maxFiles

theorem of_sameDirectories (h : Stands fs path maxFiles room live old)
    (same : fs.SameDirectories fs') {live' : Option FileId} {old' : Nat → Option FileId}
    (at_live : fs'.nodeOf? path = live'.map .file)
    (at_old : ∀ k, fs'.nodeOf? (numbered path (k + 1)) = (old' k).map .file) :
    Stands fs' path maxFiles room live' old' := by
  refine ⟨h.noNul, ?_, ?_, at_live, at_old⟩
  · rw [same.locate?]
    exact h.located
  · simp only [RollingFile.room, same.locate?]
    exact h.room

theorem update_numbered (h : Stands fs path maxFiles room live old) {k : Nat} {place : Place}
    (located : fs.locate? (numbered path (k + 1)) = some place) (same : fs.SameDirectories fs')
    {x : Option FileId}
    (changed : ∀ q, fs'.nodeAt q = if q = place then x.map .file else fs.nodeAt q) :
    Stands fs' path maxFiles room live (Function.update old k x) := by
  obtain ⟨home, at_home⟩ := Option.ne_none_iff_exists'.mp h.located
  have nonempty := (walk_of_locate? h.noNul at_home).1
  apply h.of_sameDirectories same
  · have apart : home ≠ place := by
      rintro rfl
      exact live_ne_numbered h.noNul at_home located
    rw [nodeOf?, same.locate?, at_home, Option.bind_some, changed, if_neg apart,
      ← nodeOf?_of_locate? at_home, h.live]
  · intro m
    rw [nodeOf?, same.locate?]
    by_cases own : m = k
    · subst own
      rw [located, Option.bind_some, changed, if_pos rfl, Function.update_self]
    · rw [Function.update_of_ne own, ← h.old m, nodeOf?]
      cases at_m : fs.locate? (numbered path (m + 1)) with
      | none => rfl
      | some q =>
        have apart : q ≠ place := by
          rintro rfl
          exact own (Nat.succ.inj (numbered_injective nonempty h.noNul at_m located))
        rw [Option.bind_some, Option.bind_some, changed, if_neg apart]

theorem update_live (h : Stands fs path maxFiles room live old) {place : Place}
    (located : fs.locate? path = some place) (same : fs.SameDirectories fs') {x : Option FileId}
    (changed : ∀ q, fs'.nodeAt q = if q = place then x.map .file else fs.nodeAt q) :
    Stands fs' path maxFiles room x old := by
  apply h.of_sameDirectories same
  · rw [nodeOf?, same.locate?, located, Option.bind_some, changed, if_pos rfl]
  · intro m
    rw [← h.old m, nodeOf?, nodeOf?, same.locate?]
    cases at_m : fs.locate? (numbered path (m + 1)) with
    | none => rfl
    | some q =>
      have apart : q ≠ place := by
        rintro rfl
        exact live_ne_numbered h.noNul located at_m
      rw [Option.bind_some, Option.bind_some, changed, if_neg apart]

theorem setContent (h : Stands fs path maxFiles room live old) (id : FileId) (content : Bytes) :
    Stands (fs.setContent id content) path maxFiles room live old := by
  have same := sameDirectories_setContent fs id content
  have node (p : String) : (fs.setContent id content).nodeOf? p = fs.nodeOf? p := by
    rw [nodeOf?, same.locate?]
    rfl
  exact h.of_sameDirectories same ((node path).trans h.live) fun k => (node _).trans (h.old k)

theorem numbered_ne_directory (h : Stands fs path maxFiles room live old) {k : Nat} {place : Place}
    (located : fs.locate? (numbered path (k + 1)) = some place) :
    fs.nodeAt place ≠ some .directory := by
  rw [← nodeOf?_of_locate? located, h.old]
  cases old k <;> simp

theorem live_ne_directory (h : Stands fs path maxFiles room live old) {place : Place}
    (located : fs.locate? path = some place) : fs.nodeAt place ≠ some .directory := by
  rw [← nodeOf?_of_locate? located, h.live]
  cases live <;> simp

theorem clear_numbered (h : Stands fs path maxFiles room live old) {k : Nat} {place : Place}
    (located : fs.locate? (numbered path (k + 1)) = some place) :
    Stands (fs.clear place) path maxFiles room live (Function.update old k none) := by
  have outside := h.numbered_ne_directory located
  exact h.update_numbered located (sameDirectories_clear outside)
    (nodeAt_clear (ne_nil_of_nodeAt outside))

theorem put_numbered (h : Stands fs path maxFiles room live old) {k : Nat} {place : Place}
    (located : fs.locate? (numbered path (k + 1)) = some place) (id : FileId) :
    Stands (fs.put place (.file id)) path maxFiles room live (Function.update old k (some id)) := by
  have outside := h.numbered_ne_directory located
  exact h.update_numbered located (sameDirectories_put outside (by simp))
    (nodeAt_put (ne_nil_of_nodeAt outside) (.file id))

theorem clear_live (h : Stands fs path maxFiles room live old) {place : Place}
    (located : fs.locate? path = some place) :
    Stands (fs.clear place) path maxFiles room none old := by
  have outside := h.live_ne_directory located
  exact h.update_live located (sameDirectories_clear outside)
    (nodeAt_clear (ne_nil_of_nodeAt outside))

theorem rename_next (h : Stands fs path maxFiles room live old) {k : Nat} (hk : k + 1 < room)
    (down : old k = none → old (k + 1) = none) :
    Stands (fs.rename (numbered path (k + 1)) (numbered path (k + 2))) path maxFiles room live
      (Function.update (Function.update old k none) (k + 1) (old k)) := by
  cases stands : old k with
  | none =>
    have missing : fs.nodeOf? (numbered path (k + 1)) = none := by rw [h.old, stands]; rfl
    have first : Function.update old k none = old := Function.update_eq_self_iff.mpr stands.symm
    have second : Function.update old (k + 1) none = old :=
      Function.update_eq_self_iff.mpr (down stands).symm
    rw [rename_missing missing, first, second]
    exact h
  | some id =>
    obtain ⟨p, at_p⟩ := Option.ne_none_iff_exists'.mp (h.places (show k < room by omega))
    obtain ⟨q, at_q⟩ := Option.ne_none_iff_exists'.mp (h.places hk)
    have source : fs.nodeAt p = some (.file id) := by
      rw [← nodeOf?_of_locate? at_p, h.old, stands]
      rfl
    have cleared := h.clear_numbered at_p
    have at_q' : (fs.clear p).locate? (numbered path (k + 2)) = some q :=
      ((sameDirectories_clear (h.numbered_ne_directory at_p)).locate? _).trans at_q
    simp only [rename, at_p, at_q, move_file source (h.numbered_ne_directory at_q)]
    exact cleared.put_numbered at_q' id

theorem rename_live {id : FileId} (h : Stands fs path maxFiles room (some id) old)
    (pos : 0 < room) :
    Stands (fs.rename path (numbered path 1)) path maxFiles room none
      (Function.update old 0 (some id)) := by
  obtain ⟨p, at_p⟩ := Option.ne_none_iff_exists'.mp h.located
  obtain ⟨q, at_q⟩ := Option.ne_none_iff_exists'.mp (h.places pos)
  have source : fs.nodeAt p = some (.file id) := (nodeOf?_of_locate? at_p).symm.trans h.live
  have cleared := h.clear_live at_p
  have at_q' : (fs.clear p).locate? (numbered path 1) = some q :=
    ((sameDirectories_clear (h.live_ne_directory at_p)).locate? _).trans at_q
  simp only [rename, at_p, at_q, move_file source (h.numbered_ne_directory at_q)]
  exact cleared.put_numbered at_q' id

theorem remove_numbered (h : Stands fs path maxFiles room live old) (k : Nat) :
    Stands (fs.remove (numbered path (k + 1))) path maxFiles room live
      (Function.update old k none) := by
  cases at_p : fs.locate? (numbered path (k + 1)) with
  | none =>
    have missing : old k = none := by
      have found := h.old k
      rw [nodeOf?, at_p] at found
      exact Option.map_eq_none_iff.mp found.symm
    have same : Function.update old k none = old := Function.update_eq_self_iff.mpr missing.symm
    simp only [remove, at_p, same]
    exact h
  | some p =>
    have outside := h.numbered_ne_directory at_p
    simp only [remove, at_p, outside, false_and, if_false]
    exact h.clear_numbered at_p

def shifted (n : Nat) (old : Nat → Option FileId) : Nat → Option FileId
  | 0 => if n = 0 then old 0 else none
  | k + 1 => if k < n then old k else old (k + 1)

theorem shift (h : Stands fs path maxFiles room live old) {n : Nat} (hn : n < room)
    (down : ∀ k < n, old k = none → old (k + 1) = none) :
    Stands (RollingFile.shift path n fs) path maxFiles room live (shifted n old) := by
  -- the highest number is moved first and leaves its own place free for the next one
  induction n generalizing fs old with
  | zero =>
    have same : shifted 0 old = old := by
      funext k
      cases k <;> rfl
    rw [same]
    exact h
  | succ n ih =>
    have moved := ih (h.rename_next hn (down n (by omega))) (by omega) (by
      intro k hk
      have := down k (by omega)
      simp only [Function.update_apply]
      split_ifs <;> first | omega | simp_all)
    have same : shifted n (Function.update (Function.update old n none) (n + 1) (old n)) =
        shifted (n + 1) old := by
      funext k
      cases k with
      | zero =>
        cases n <;> rfl
      | succ k =>
        simp only [shifted, Function.update_apply]
        split_ifs <;> first | rfl | omega | (congr 1; omega)
    rw [← same]
    exact moved

theorem shift_eq (h : Stands fs path maxFiles room live old)
    (few : ∀ k, room ≤ k → old k = none) {n : Nat} (all : room - 1 ≤ n) (hn : n < maxFiles) :
    RollingFile.shift path n fs = RollingFile.shift path (room - 1) fs := by
  induction n, all using Nat.le_induction with
  | base => rfl
  | succ n all ih =>
    have still : fs.rename (numbered path (n + 1)) (numbered path (n + 2)) = fs := by
      by_cases inside : n < room
      · obtain rfl : room = n + 1 := by omega
        exact rename_nowhere (h.ends hn) _
      · apply rename_missing
        rw [h.old, few n (by omega)]
        rfl
    rw [RollingFile.shift, still]
    exact ih (by omega)

/-- The log file is set aside in front of the older ones, of which the oldest makes room. -/
theorem setAside {id : FileId} {ids : List FileId} (pos : 0 < room)
    (h : Stands fs path maxFiles room (some id) fun k => ids[k]?) (few : ids.length ≤ room) :
    Stands (RollingFile.setAside path maxFiles fs) path maxFiles room none
      fun k => ((id :: ids).take room)[k]? := by
  have le := h.room_le
  obtain ⟨n, rfl⟩ : ∃ n, maxFiles = n + 1 := Nat.exists_eq_add_one.mpr (by omega)
  have removed := h.remove_numbered n
  generalize rest : Function.update (fun k => ids[k]?) n none = old at removed
  have old_eq (k : Nat) : old k = if k = n then none else ids[k]? := by
    rw [← rest, Function.update_apply]
  have free : ∀ k, room ≤ k → old k = none := by
    intro k beyond
    rw [old_eq, List.getElem?_eq_none (by omega), ite_self]
  have down : ∀ k < room - 1, old k = none → old (k + 1) = none := by
    intro k inside
    rw [old_eq, old_eq, if_neg (show k ≠ n by omega)]
    intro beyond
    have := List.getElem?_eq_none_iff.mp beyond
    rw [List.getElem?_eq_none (show ids.length ≤ k + 1 by omega), ite_self]
  have moved := (removed.shift (show room - 1 < room by omega) down).rename_live pos
  rw [← removed.shift_eq free (show room - 1 ≤ n by omega) (Nat.lt_succ_self n)] at moved
  have same : (fun k => ((id :: ids).take room)[k]?) =
      Function.update (shifted (room - 1) old) 0 (some id) := by
    funext k
    cases k with
    | zero => rw [Function.update_self, List.getElem?_take_of_lt pos, List.getElem?_cons_zero]
    | succ k =>
      rw [Function.update_of_ne (Nat.succ_ne_zero k), shifted, List.getElem?_take,
        List.getElem?_cons_succ]
      split_ifs
      · rw [old_eq, if_neg (by omega)]
      · omega
      · omega
      · exact (free (k + 1) (by omega)).symm
  rw [same]
  exact moved

theorem setAside_without_room {id : FileId}
    (h : Stands fs path maxFiles 0 (some id) fun k => ([] : List FileId)[k]?) :
    Stands (RollingFile.setAside path maxFiles fs) path maxFiles 0 (some id)
      fun k => ([] : List FileId)[k]? := by
  cases maxFiles with
  | zero => exact h
  | succ n =>
    have removed := h.remove_numbered n
    have same : Function.update (fun k => ([] : List FileId)[k]?) n none = fun k => [][k]? :=
      Function.update_eq_self_iff.mpr rfl
    rw [same] at removed
    rw [RollingFile.setAside,
      removed.shift_eq (fun _ _ => rfl) (Nat.zero_le n) (Nat.lt_succ_self n)]
    exact (rename_nowhere (removed.ends (Nat.succ_pos n)) path).symm ▸ removed

theorem putFile (h : Stands fs path maxFiles room none old) {place : Place}
    (located : fs.locate? path = some place) (content : Bytes) :
    Stands (fs.putFile place content).2 path maxFiles room (some fs.contents.length) old := by
  have outside := h.live_ne_directory located
  exact h.update_live located (sameDirectories_putFile outside content)
    (nodeAt_putFile (ne_nil_of_nodeAt outside) content)

theorem contents_shift (path : String) (n : Nat) (fs : FileSystem) :
    (RollingFile.shift path n fs).contents = fs.contents := by
  induction n generalizing fs with
  | zero => rfl
  | succ n ih => rw [RollingFile.shift, ih, contents_rename]

theorem contents_setAside (path : String) (n : Nat) (fs : FileSystem) :
    (RollingFile.setAside path n fs).contents = fs.contents := by
  cases n with
  | zero => rfl
  | succ n => rw [RollingFile.setAside, contents_rename, contents_shift, contents_remove]

end Stands

end Log.RollingFile

end WireRecords
