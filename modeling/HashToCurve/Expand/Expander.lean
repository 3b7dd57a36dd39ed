import HashToCurve.Bytes.Basic

/-!
# Expanders

An expander turns a message and a domain separation tag, both given as lists of slices, into
a stream of bytes.  A stream may run dry, and a dry stream stays as it is.

`fill` overwrites a buffer from the stream, byte by byte.  The bytes that a dry stream does
not reach keep what the buffer held before.
-/

namespace HashToCurve

/-- A way to expand a message and a domain separation tag to a stream of bytes. -/
structure Expander where
  /-- Why a request is rejected. -/
  Rejection : Type
  /-- The text a rejection is reported with. -/
  message : Rejection → String
  /-- The state of a stream. -/
  Stream : Type
  /-- The stream for a security level in bytes, the slices of a message, the slices of a tag,
  and the number of bytes that will be wanted. -/
  start : (level : Nat) → (message tag : List Bytes) → (length : Nat) →
    Except Rejection Stream
  /-- The next byte of a stream and the state after it, unless the stream is dry. -/
  next? : Stream → Option (UInt8 × Stream)
  /-- The text that shows the state of a stream. -/
  describe : Stream → String

namespace Expander

/-- The number of bytes asked of an expander as a word of two bytes, if it is one of
`1, …, 65535`. -/
def lengthWord? (length : Nat) : Option UInt16 :=
  if length = 0 ∨ 65535 < length then none else some (UInt16.ofNat length)

variable (E : Expander)

/-- Overwrites a buffer, after the bytes `acc` that have been written before it, last first. -/
def fillOnto : (buffer : Bytes) → E.Stream → (acc : Bytes) → Bytes × E.Stream
  | [], s, acc => (acc.reverse, s)
  | old :: rest, s, acc =>
    match E.next? s with
    | some (b, s) => fillOnto rest s (b :: acc)
    | none => (acc.reverse ++ old :: rest, s)

/-- A buffer overwritten from a stream, and the state of the stream after it. -/
def fill (buffer : Bytes) (s : E.Stream) : Bytes × E.Stream := fillOnto E buffer s []

theorem fillOnto_eq (buffer : Bytes) (s : E.Stream) (acc : Bytes) :
  fillOnto E buffer s acc = (acc.reverse ++ (fill E buffer s).1, (fill E buffer s).2)
  := by
  induction buffer generalizing s acc with
  | nil => simp [fillOnto, fill]
  | cons old rest ih =>
    rw [fill, fillOnto, fillOnto]
    cases E.next? s with
    | none => simp
    | some step =>
      simp only [ih step.2 (step.1 :: acc), ih step.2 [step.1]]
      simp

theorem fill_cons (old : UInt8) (rest : Bytes) (s : E.Stream) :
  fill E (old :: rest) s
    = match E.next? s with
      | some (b, s) => (b :: (fill E rest s).1, (fill E rest s).2)
      | none => (old :: rest, s)
  := by
  rw [fill, fillOnto]
  cases E.next? s with
  | none => rfl
  | some step => exact fillOnto_eq E rest step.2 [step.1]

theorem length_fill (buffer : Bytes) (s : E.Stream) :
  (fill E buffer s).1.length = buffer.length
  := by
  induction buffer generalizing s with
  | nil => rfl
  | cons old rest ih =>
    rw [fill_cons]
    cases E.next? s with
    | none => rfl
    | some step => simp [ih]

/-- A buffer of fixed size overwritten from a stream, and the state of the stream after it. -/
def fillVector {n : Nat} (buffer : Vector UInt8 n) (s : E.Stream) :
    Vector UInt8 n × E.Stream :=
  (⟨(fill E buffer.toList s).1.toArray, by simp [length_fill]⟩, (fill E buffer.toList s).2)

/-- The buffers overwritten one after the other from one stream, each with the state of the
stream after it. -/
def fillEach : List Bytes → E.Stream → List (Bytes × E.Stream)
  | [], _ => []
  | buffer :: rest, s => fill E buffer s :: fillEach rest (fill E buffer s).2

end Expander

end HashToCurve
