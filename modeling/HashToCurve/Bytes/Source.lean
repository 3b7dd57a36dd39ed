import HashToCurve.Bytes.Basic

/-!
# Sources of bytes

A source is a state from which bytes are drawn one at a time without end.  `draw n` draws
`n` bytes; drawing `m + n` bytes is drawing `m` and then `n`.  A tape is the source that
yields the bytes of a fixed string in order, over and over.
-/

namespace HashToCurve

/-- An endless supply of bytes, drawn one at a time from a state. -/
class ByteSource (σ : Type) where
  /-- The next byte, and the state after it. -/
  next : σ → UInt8 × σ

namespace ByteSource

variable {σ : Type} [ByteSource σ]

/-- Draws `n` more bytes after those of `acc`, which holds the bytes drawn so far, last
first. -/
def drawOnto : (n : Nat) → σ → (acc : Bytes) → Bytes × σ
  | 0, s, acc => (acc.reverse, s)
  | n + 1, s, acc => drawOnto n (next s).2 ((next s).1 :: acc)

/-- The next `n` bytes of a source, and the state after them. -/
def draw (n : Nat) (s : σ) : Bytes × σ := drawOnto n s []

theorem drawOnto_eq (n : Nat) (s : σ) (acc : Bytes) :
  drawOnto n s acc = (acc.reverse ++ (draw n s).1, (draw n s).2)
  := by
  induction n generalizing s acc with
  | zero => simp [drawOnto, draw]
  | succ n ih =>
    rw [show draw (n + 1) s = drawOnto n (next s).2 [(next s).1] from rfl, drawOnto, ih,
      ih (next s).2 [(next s).1]]
    simp

theorem draw_zero (s : σ) :
  draw 0 s = ([], s)
  := rfl

theorem draw_succ (n : Nat) (s : σ) :
  draw (n + 1) s = ((next s).1 :: (draw n (next s).2).1, (draw n (next s).2).2)
  := drawOnto_eq n (next s).2 [(next s).1]

theorem length_draw (n : Nat) (s : σ) :
  (draw n s).1.length = n
  := by
  induction n generalizing s with
  | zero => rfl
  | succ n ih => simp [draw_succ, ih]

/-- Drawing is independent of the sizes in which it is done. -/
theorem draw_add (m n : Nat) (s : σ) :
  draw (m + n) s
    = ((draw m s).1 ++ (draw n (draw m s).2).1, (draw n (draw m s).2).2)
  := by
  induction m generalizing s with
  | zero => simp [draw_zero]
  | succ m ih =>
    rw [show m + 1 + n = m + n + 1 by omega, draw_succ, ih, draw_succ]
    rfl

/-- The next `n` bytes of a source as a string of fixed size, and the state after them. -/
def drawVector (n : Nat) (s : σ) : Vector UInt8 n × σ :=
  (⟨(draw n s).1.toArray, by simp [length_draw]⟩, (draw n s).2)

end ByteSource

/-- A non-empty byte string that is read in order and again from its start. -/
structure Tape where
  /-- The string. -/
  bytes : Array UInt8
  size_pos : 0 < bytes.size
  /-- The position of the next byte. -/
  position : Fin bytes.size

namespace Tape

/-- The tape of a byte string at its first byte, if there is one. -/
def ofBytes? (b : Bytes) : Option Tape :=
  if h : 0 < b.toArray.size then some ⟨b.toArray, h, ⟨0, h⟩⟩ else none

/-- Moves a tape past its next byte. -/
def advance (t : Tape) : Tape :=
  { t with position := ⟨(t.position + 1) % t.bytes.size, Nat.mod_lt _ t.size_pos⟩ }

instance : ByteSource Tape where
  next t := (t.bytes[t.position], t.advance)

end Tape

end HashToCurve
