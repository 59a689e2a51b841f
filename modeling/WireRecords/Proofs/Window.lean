import WireRecords.Bytes
import Mathlib.Data.List.Basic
import Mathlib.Data.List.Pairwise

/-!
# Windows

A window is a run of positions in a buffer. Windows that lie back to back tile what they cover: none
overlap, nothing is left out, and each starts where the one before it stops. The bytes of a window
are found again inside a concatenation.
-/

namespace WireRecords

/-- The positions from `start` on, `length` of them. -/
structure Window where
  start : Nat
  length : Nat
  deriving DecidableEq, Repr

namespace Window

def stop (w : Window) : Nat := w.start + w.length

instance : Membership Nat Window := ⟨fun w p => w.start ≤ p ∧ p < w.stop⟩

theorem mem_iff {w : Window} {p : Nat} : p ∈ w ↔ w.start ≤ p ∧ p < w.start + w.length := Iff.rfl

def Apart (v w : Window) : Prop := ∀ p, p ∈ v → p ∉ w

instance : Std.Symm Apart := ⟨fun _ _ h p hw hv => h p hv hw⟩

/-- The windows lie back to back, the first from `start` on and the last up to `stop`. -/
def Tiles : Nat → Nat → List Window → Prop
  | start, stop, [] => start = stop
  | start, stop, w :: ws => w.start = start ∧ Tiles w.stop stop ws

theorem Tiles.le {a b : Nat} {ws : List Window} (h : Tiles a b ws) : a ≤ b := by
  induction ws generalizing a with
  | nil => exact Nat.le_of_eq h
  | cons w ws ih =>
    have hs := ih h.2
    have hw := h.1
    simp only [stop] at hs
    omega

theorem Tiles.append {a b c : Nat} {vs ws : List Window} (hv : Tiles a b vs)
    (hw : Tiles b c ws) : Tiles a c (vs ++ ws) := by
  induction vs generalizing a with
  | nil =>
    cases hv
    exact hw
  | cons v vs ih => exact ⟨hv.1, ih hv.2⟩

theorem Tiles.covers {a b : Nat} {ws : List Window} (h : Tiles a b ws) (p : Nat) :
    (∃ w ∈ ws, p ∈ w) ↔ a ≤ p ∧ p < b := by
  induction ws generalizing a with
  | nil =>
    cases h
    simp only [List.not_mem_nil, false_and, exists_false, false_iff]
    omega
  | cons w ws ih =>
    have hle := Tiles.le h.2
    have hs := h.1
    rw [List.exists_mem_cons_iff, ih h.2, mem_iff]
    simp only [stop] at hle ⊢
    omega

theorem Tiles.apart {a b : Nat} {ws : List Window} (h : Tiles a b ws) : ws.Pairwise Apart := by
  induction ws generalizing a with
  | nil => exact List.Pairwise.nil
  | cons w ws ih =>
    refine List.Pairwise.cons ?_ (ih h.2)
    intro v hv p hp hq
    -- what follows the first window starts behind it
    have behind := ((Tiles.covers h.2 p).mp ⟨v, hv, hq⟩).1
    exact absurd hp.2 (Nat.not_lt.mpr behind)

theorem Tiles.consecutive {a b : Nat} {ws : List Window} (h : Tiles a b ws) :
    ws.IsChain (fun v w => w.start = v.stop) := by
  induction ws generalizing a with
  | nil => exact List.IsChain.nil
  | cons v ws ih =>
    cases ws with
    | nil => exact List.IsChain.singleton v
    | cons w ws => exact List.IsChain.cons_cons h.2.1 (ih h.2)

end Window

namespace Bytes

theorem getElem?_window (buf : Bytes) (start len i : Nat) :
    (window buf start len)[i]? = if i < len then buf[start + i]? else none := by
  simp only [window, List.getElem?_take, List.getElem?_drop]

theorem length_window {buf : Bytes} {start len : Nat} (h : start + len ≤ buf.length) :
    (window buf start len).length = len := by
  simp only [window, List.length_take, List.length_drop]
  omega

theorem window_append_front (as bs : Bytes) : window (as ++ bs) 0 as.length = as := by
  simp [window]

theorem window_append_left {as : Bytes} {start len : Nat} (h : start + len ≤ as.length)
    (bs : Bytes) : window (as ++ bs) start len = window as start len := by
  have hd : len ≤ (as.drop start).length := by
    rw [List.length_drop]
    omega
  rw [window, List.drop_append_of_le_length (by omega), List.take_append_of_le_length hd, window]

theorem window_append_right (as bs : Bytes) (start len : Nat) :
    window (as ++ bs) (as.length + start) len = window bs start len := by
  rw [window, List.drop_length_add_append, window]

theorem window_drop (buf : Bytes) (n start len : Nat) :
    window (buf.drop n) start len = window buf (n + start) len := by
  rw [window, List.drop_drop, window]

theorem window_take {n start len : Nat} (h : start + len ≤ n) (buf : Bytes) :
    window (buf.take n) start len = window buf start len := by
  rw [window, List.drop_take, List.take_take, Nat.min_eq_left (by omega), window]

theorem window_set {q start len : Nat} (h : q < start ∨ start + len ≤ q) (buf : Bytes) (x : UInt8) :
    window (buf.set q x) start len = window buf start len := by
  apply List.ext_getElem?
  intro i
  rw [getElem?_window, getElem?_window]
  split
  · exact List.getElem?_set_ne (by omega)
  · rfl

end Bytes

end WireRecords
