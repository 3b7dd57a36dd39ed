import HashToCurve.Bytes.Source
import Mathlib.Logic.Function.Iterate

/-!
# The bytes of a source

The bytes that a source yields are numbered from 0 on.  Drawing from a source reads the bytes with
the next numbers, in order, and leaves the source in the state after the last one of them.
-/

namespace HashToCurve.ByteSource

variable {σ : Type} [ByteSource σ]

/-- The state of a source after a number of its bytes. -/
def after (n : Nat) : σ → σ := (fun s => (next s).2)^[n]

/-- The byte of a source with a given number. -/
def byteAt (s : σ) (n : Nat) : UInt8 := (next (after n s)).1

/-- As many bytes of a source as wanted, from the one with a given number on. -/
def window (s : σ) (start size : Nat) : Bytes := (List.range' start size).map (byteAt s)

/-- Taking bytes twice takes them one after the other. -/
theorem after_add (m n : Nat) (s : σ) :
  after (m + n) s = after n (after m s)
  := by
  rw [Nat.add_comm]
  apply Function.iterate_add_apply

/-- After the first bytes, numbers start from there. -/
theorem window_after (m : Nat) (s : σ) (start size : Nat) :
  window (after m s) start size = window s (m + start) size
  := by
  rw [window, window, ← List.map_add_range', List.map_map]
  apply List.map_congr_left
  intro j _
  rw [Function.comp_apply, byteAt, byteAt, after_add]

/-- A window starts with the byte at its position. -/
theorem window_succ (s : σ) (start size : Nat) :
  window s start (size + 1) = byteAt s start :: window s (start + 1) size
  := by
  rw [window, List.range'_succ, List.map_cons]
  rfl

/-- A byte of a window is the byte of the source at its distance from the start. -/
theorem getElem?_window (s : σ) (start : Nat) {size j : Nat} (hj : j < size) :
  (window s start size)[j]? = some (byteAt s (start + j))
  := by
  rw [window, List.getElem?_map, List.getElem?_range' hj, Nat.one_mul]
  rfl

/-- Drawing reads the next bytes, and leaves a source after them. -/
theorem draw_eq (n : Nat) (s : σ) :
  draw n s = (window s 0 n, after n s)
  := by
  induction n generalizing s with
  | zero => rfl
  | succ n ih =>
    have hrest : window (after 1 s) 0 n = window s (0 + 1) n := window_after 1 s 0 n
    rw [draw_succ, ih, window_succ, ← hrest]
    rfl

end HashToCurve.ByteSource
