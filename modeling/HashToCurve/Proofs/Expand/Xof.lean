import HashToCurve.Proofs.Bytes.Source
import HashToCurve.Proofs.Expand.OneShot
import HashToCurve.Proofs.Expand.Stream
import HashToCurve.Proofs.Expand.Xmd

/-!
# The stream of a reader

The stream of an extendable hash function yields the output of the function in order, and never runs
dry.
-/

namespace HashToCurve

open Bytes ByteSource

namespace Xof

variable {X : ExtendableHash}

/-- The run of a reader from its first byte on. -/
def run (X : ExtendableHash) (r : X.Reader) : Expander.Run (expander X) where
  state t := (draw t r).2
  byte? t := some (next (draw t r).2).1
  next?_state t := by
    rw [draw_add, draw_succ]
    rfl
  state_dry t h := by cases h

/-- A byte that is drawn is the next byte of the reader after the bytes before it. -/
theorem getElem?_draw (r : X.Reader) {n j : Nat} (hj : j < n) :
  (draw n r).1[j]? = some (next (draw j r).2).1
  := by
  rw [draw_eq, draw_eq, getElem?_window r 0 hj, Nat.zero_add]
  rfl

variable {level : Nat} {message tag : List Bytes} {length : Nat} {s : X.Reader}

/-- The expansion has the length that is asked for. -/
theorem length_expand (X : ExtendableHash) (level : Nat) (message tag : Bytes) (length : Nat) :
  (expand X level message tag length).length = length
  := Vector.length_toList

/-- The stream of a request begins with the expansion in one shot. -/
theorem yields_of_start (h : start X level message tag length = .ok s) :
  (expander X).Yields s (expand X level message.flatten tag.flatten length)
  := by
  rw [start] at h
  split at h
  · cases h
  rename_i word hword
  obtain ⟨-, -, hlength⟩ := Expander.toNat_lengthWord hword
  obtain ⟨t, ht, rfl⟩ := exists_of_map_eq_ok h
  refine ⟨run X _, rfl, ?_⟩
  intro j hj
  rw [length_expand] at hj
  rw [expand, ← Tag.framed_of_ofSlices ht, readerInput, hlength]
  exact (getElem?_draw _ hj).symm

/-- The bytes that the stream gives are those of the one-shot expansion. -/
theorem expands (X : ExtendableHash) (level : Nat) :
  (expander X).Expands level (expand X level)
  where
  length_expansion := length_expand X level
  yields_of_start _ _ _ _ h := yields_of_start h

end Xof

end HashToCurve
