import HashToCurve.Expand.Expander
import Mathlib.Data.List.Basic

/-!
# Reading a stream in pieces

A run of an expander lists its states in order, each with the byte that it yields, if it is not dry.
Buffers that are overwritten one after the other receive the bytes of the run, whatever their sizes,
and what a dry stream does not reach keeps its content.
-/

namespace HashToCurve

/-- A result that is made from another one. -/
theorem exists_of_map_eq_ok {ε α β : Type} {x : Except ε α} {f : α → β} {b : β}
    (h : x.map f = .ok b) :
  ∃ a, x = .ok a ∧ f a = b
  := by
  cases x with
  | error reason => cases h
  | ok a =>
    cases h
    exact ⟨a, rfl, rfl⟩

namespace Expander

/-- A length that has a word of 16 bits is in its range, and the word holds it. -/
theorem toNat_lengthWord {length : Nat} {word : UInt16} (h : lengthWord? length = some word) :
  1 ≤ length ∧ length ≤ 65535 ∧ word.toNat = length
  := by
  rw [lengthWord?] at h
  split at h
  · cases h
  cases h
  rw [UInt16.toNat_ofNat']
  omega

variable {E : Expander}

/-- The state of a stream after buffers have been overwritten from it, one after the other. -/
def after (E : Expander) (buffers : List Bytes) (s : E.Stream) : E.Stream :=
  buffers.foldl (fun s buffer => (E.fill buffer s).2) s

/-- Filling keeps the length of every buffer. -/
theorem length_fillEach (buffers : List Bytes) (s : E.Stream) :
  (E.fillEach buffers s).map (fun r => r.1.length) = buffers.map List.length
  := by
  induction buffers generalizing s with
  | nil => rfl
  | cons buffer rest ih =>
    rw [fillEach, List.map_cons, List.map_cons, length_fill, ih]

/-- A dry stream leaves a buffer as it is. -/
theorem fill_of_dry {s : E.Stream} (h : E.next? s = none) (buffer : Bytes) :
  E.fill buffer s = (buffer, s)
  := by
  cases buffer with
  | nil => rfl
  | cons old rest => rw [fill_cons, h]

/-- A buffer is overwritten as its two parts are, one after the other. -/
theorem fill_append (a b : Bytes) (s : E.Stream) :
  E.fill (a ++ b) s = ((E.fill a s).1 ++ (E.fill b (E.fill a s).2).1, (E.fill b (E.fill a s).2).2)
  := by
  induction a generalizing s with
  | nil => rfl
  | cons old rest ih =>
    rw [List.cons_append, fill_cons, fill_cons]
    cases h : E.next? s with
    | none =>
      dsimp only
      rw [fill_of_dry h]
      rfl
    | some step =>
      dsimp only
      rw [ih, List.cons_append]

/-- Buffers are overwritten one after the other as the one buffer of their contents is. -/
theorem fill_flatten (buffers : List Bytes) (s : E.Stream) :
  E.fill buffers.flatten s = ((E.fillEach buffers s).flatMap Prod.fst, E.after buffers s)
  := by
  induction buffers generalizing s with
  | nil => rfl
  | cons buffer rest ih =>
    rw [List.flatten_cons, fill_append, ih, fillEach, List.flatMap_cons]
    rfl

/-- The states of a stream in order, and the bytes that they yield.  A dry stream stays as it is. -/
structure Run (E : Expander) where
  /-- The state after a number of bytes have been asked for. -/
  state : Nat → E.Stream
  /-- The byte that a state yields, unless the stream is dry. -/
  byte? : Nat → Option UInt8
  next?_state : ∀ t, E.next? (state t) = (byte? t).map fun b => (b, state (t + 1))
  state_dry : ∀ t, byte? t = none → state (t + 1) = state t

namespace Run

variable (R : Run E)

/-- What a buffer holds after it has been overwritten from the state at `t` on. -/
def overwrite (t : Nat) (buffer : Bytes) : Bytes :=
  buffer.mapIdx fun j old => (R.byte? (t + j)).getD old

/-- The first byte of a buffer is overwritten with the byte at the position, if there is one. -/
theorem overwrite_cons (t : Nat) (old : UInt8) (rest : Bytes) :
  R.overwrite t (old :: rest) = (R.byte? t).getD old :: R.overwrite (t + 1) rest
  := by
  rw [overwrite, List.mapIdx_cons, overwrite]
  simp only [Nat.add_zero, Nat.add_assoc, Nat.add_comm 1]

theorem length_overwrite (t : Nat) (buffer : Bytes) :
  (R.overwrite t buffer).length = buffer.length
  := List.length_mapIdx

/-- A byte of a buffer is overwritten with the byte at its position, and is kept if there is none.
-/
theorem getElem?_overwrite (t j : Nat) (buffer : Bytes) :
  (R.overwrite t buffer)[j]? = buffer[j]?.map (R.byte? (t + j)).getD
  := by
  rw [overwrite, List.getElem?_mapIdx]

/-- A buffer begins with the bytes of the run, as far as there are any. -/
theorem take_overwrite {t n : Nat} {bytes buffer : Bytes} (hbytes : n ≤ bytes.length)
    (hbuffer : n ≤ buffer.length) (h : ∀ j < n, R.byte? (t + j) = bytes[j]?) :
  (R.overwrite t buffer).take n = bytes.take n
  := by
  apply List.ext_getElem? fun j => ?_
  rw [List.getElem?_take, List.getElem?_take, getElem?_overwrite]
  split
  · rename_i hj
    rw [h j hj, List.getElem?_eq_getElem (by omega), List.getElem?_eq_getElem (by omega)]
    rfl
  · rfl

/-- A buffer receives the bytes of the run, if there are as many. -/
theorem overwrite_eq_take {t : Nat} {bytes buffer : Bytes} (hbytes : buffer.length ≤ bytes.length)
    (h : ∀ j < buffer.length, R.byte? (t + j) = bytes[j]?) :
  R.overwrite t buffer = bytes.take buffer.length
  := by
  have htake := R.take_overwrite hbytes (Nat.le_refl _) h
  rwa [List.take_of_length_le (Nat.le_of_eq (R.length_overwrite t buffer))] at htake

/-- There are no bytes after the end. -/
theorem dry_succ {t : Nat} (h : R.byte? t = none) :
  R.byte? (t + 1) = none
  := by
  have hnext := R.next?_state t
  rw [h, ← R.state_dry t h, R.next?_state (t + 1)] at hnext
  simpa using hnext

/-- A dry stream stays dry, and as it is. -/
theorem dry_add {t : Nat} (h : R.byte? t = none) (n : Nat) :
  R.byte? (t + n) = none ∧ R.state (t + n) = R.state t
  := by
  induction n with
  | zero => exact ⟨h, rfl⟩
  | succ n ih =>
    rw [← Nat.add_assoc]
    exact ⟨R.dry_succ ih.1, (R.state_dry _ ih.1).trans ih.2⟩

/-- Beyond the end, a buffer keeps its content. -/
theorem overwrite_dry {t : Nat} (h : R.byte? t = none) (buffer : Bytes) :
  R.overwrite t buffer = buffer
  := by
  apply List.ext_getElem? fun j => ?_
  rw [getElem?_overwrite, (R.dry_add h j).1]
  cases buffer[j]? <;> rfl

/-- One buffer moves the stream by its size. -/
theorem fill_state (buffer : Bytes) (t : Nat) :
  E.fill buffer (R.state t) = (R.overwrite t buffer, R.state (t + buffer.length))
  := by
  induction buffer generalizing t with
  | nil => rfl
  | cons old rest ih =>
    rw [fill_cons, R.next?_state]
    cases h : R.byte? t with
    | none =>
      rw [R.overwrite_dry h, (R.dry_add h (old :: rest).length).2]
      rfl
    | some b =>
      rw [overwrite_cons, h, List.length_cons]
      simp only [Option.map_some, Option.getD_some, ih, Nat.add_assoc, Nat.add_comm 1]

/-- A buffer of fixed size moves the stream by that size. -/
theorem fillVector_state {n : Nat} (buffer : Vector UInt8 n) (t : Nat) :
  (E.fillVector buffer (R.state t)).1.toList = R.overwrite t buffer.toList
    ∧ (E.fillVector buffer (R.state t)).2 = R.state (t + n)
  := by
  simp [Expander.fillVector, R.fill_state]

/-- A buffer of fixed size receives the bytes of the run, if there are as many. -/
theorem toList_fillVector {n t : Nat} {bytes : Bytes} (buffer : Vector UInt8 n)
    (hbytes : n ≤ bytes.length) (h : ∀ j < n, R.byte? (t + j) = bytes[j]?) :
  (E.fillVector buffer (R.state t)).1.toList = bytes.take n
  := by
  have hsize := buffer.length_toList
  have hoverwrite : R.overwrite t buffer.toList = bytes.take buffer.toList.length := by
    apply R.overwrite_eq_take (by omega)
    intro j hj
    apply h j (by omega)
  rw [(R.fillVector_state buffer t).1, hoverwrite, hsize]

/-- The buffers move the stream by their sizes. -/
theorem after_state (buffers : List Bytes) (t : Nat) :
  E.after buffers (R.state t) = R.state (t + buffers.flatten.length)
  := by
  have h := congrArg Prod.snd (fill_flatten buffers (R.state t))
  rw [R.fill_state] at h
  apply h.symm

/-- The contents of the buffers, one after the other. -/
theorem flatMap_fillEach (buffers : List Bytes) (t : Nat) :
  (E.fillEach buffers (R.state t)).flatMap Prod.fst = R.overwrite t buffers.flatten
  := by
  have h := congrArg Prod.fst (fill_flatten buffers (R.state t))
  rw [R.fill_state] at h
  apply h.symm

end Run

/-- A stream begins with given bytes. -/
def Yields (E : Expander) (s : E.Stream) (bytes : Bytes) : Prop :=
  ∃ R : Run E, R.state 0 = s ∧ ∀ j < bytes.length, R.byte? j = bytes[j]?

/-- A buffer that holds as many bytes receives them. -/
theorem Yields.fillVector {s : E.Stream} {bytes : Bytes} (h : E.Yields s bytes) {n : Nat}
    (buffer : Vector UInt8 n) (hn : n = bytes.length) :
  (E.fillVector buffer s).1.toList = bytes
  := by
  obtain ⟨R, rfl, hbytes⟩ := h
  rw [R.toList_fillVector buffer (Nat.le_of_eq hn), List.take_of_length_le (Nat.le_of_eq hn.symm)]
  intro j hj
  rw [Nat.zero_add, hbytes j (by omega)]

/-- The streams of an expander at a security level begin with an expansion of the byte strings of the
message and of the tag. -/
structure Expands (E : Expander) (level : Nat)
    (expansion : (message tag : Bytes) → (length : Nat) → Bytes) : Prop where
  length_expansion : ∀ message tag length, (expansion message tag length).length = length
  yields_of_start : ∀ message tag length s, E.start level message tag length = .ok s →
    E.Yields s (expansion message.flatten tag.flatten length)

end Expander

end HashToCurve
