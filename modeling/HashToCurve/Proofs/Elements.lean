import HashToCurve.HashToField
import HashToCurve.Proofs.Expand.Stream

/-!
# Elements of a stream

The elements that are read from a stream are those of its consecutive blocks.  The block that is
overwritten for each of them shows in none of them, as long as the stream does not run dry.
-/

namespace HashToCurve

open HashToField

/-- The block of `size` bytes with a given number, cut short where the bytes end. -/
def blockAt (size : Nat) (bytes : Bytes) (i : Nat) : Bytes := (bytes.drop (size * i)).take size

theorem blockAt_zero (size : Nat) (bytes : Bytes) :
  blockAt size bytes 0 = bytes.take size
  := rfl

/-- The blocks after the first one are those of the bytes after it. -/
theorem blockAt_succ (size : Nat) (bytes : Bytes) (i : Nat) :
  blockAt size bytes (i + 1) = blockAt size (bytes.drop size) i
  := by rw [blockAt, blockAt, List.drop_drop, Nat.mul_succ, Nat.add_comm]

/-- A block before the end of the bytes is not cut short. -/
theorem length_blockAt {size i : Nat} {bytes : Bytes} (h : size * (i + 1) ≤ bytes.length) :
  (blockAt size bytes i).length = size
  := by
  rw [Nat.mul_succ] at h
  rw [blockAt, List.length_take, List.length_drop]
  omega

variable (T : Type) [FromUniformBytes T]

/-- The element of the block with a given number, unless the bytes end within it. -/
def elementAt? (bytes : Bytes) (i : Nat) : Option T :=
  let block := blockAt (FromUniformBytes.size T) bytes i
  if h : block.length = FromUniformBytes.size T then
    some (FromUniformBytes.ofUniformBytes ⟨block.toArray, h⟩)
  else none

/-- There is an element for every block that the bytes fill. -/
theorem elementAt?_of_le {bytes : Bytes} {i : Nat}
    (h : FromUniformBytes.size T * (i + 1) ≤ bytes.length) :
  elementAt? T bytes i = some (FromUniformBytes.ofUniformBytes
    ⟨(blockAt (FromUniformBytes.size T) bytes i).toArray, length_blockAt h⟩)
  := dif_pos (length_blockAt h)

/-- An element is made from its block. -/
theorem elementAt?_eq_some {bytes : Bytes} {i : Nat} (block : Vector UInt8 (FromUniformBytes.size T))
    (h : block.toList = blockAt (FromUniformBytes.size T) bytes i) :
  elementAt? T bytes i = some (FromUniformBytes.ofUniformBytes block)
  := by
  have hlength : (blockAt (FromUniformBytes.size T) bytes i).length = FromUniformBytes.size T := by
    rw [← h]
    exact block.length_toList
  have hblock : ⟨(blockAt (FromUniformBytes.size T) bytes i).toArray, hlength⟩ = block :=
    Vector.toList_inj.mp h.symm
  rw [elementAt?, dif_pos hlength, hblock]

/-- The next element is the one at the same place after the first block. -/
theorem elementAt?_succ (bytes : Bytes) (i : Nat) :
  elementAt? T bytes (i + 1) = elementAt? T (bytes.drop (FromUniformBytes.size T)) i
  := by
  simp only [elementAt?, blockAt_succ]

/-! ### Reading from a run -/

section Run

variable {E : Expander}

variable {T}

/-- The elements of a run that yields all bytes that they take. -/
theorem readElements_eq (R : E.Run) (count : Nat) {bytes : Bytes}
    (block : Vector UInt8 (FromUniformBytes.size T)) (t : Nat)
    (hlength : FromUniformBytes.size T * count ≤ bytes.length)
    (h : ∀ j < FromUniformBytes.size T * count, R.byte? (t + j) = bytes[j]?) :
  (readElements E T count block (R.state t)).map some = (List.range count).map (elementAt? T bytes)
  := by
  induction count generalizing bytes block t with
  | zero => rfl
  | succ count ih =>
    rw [Nat.mul_succ] at hlength h
    have hfirst : (E.fillVector block (R.state t)).1.toList
        = blockAt (FromUniformBytes.size T) bytes 0 := by
      rw [blockAt_zero]
      apply R.toList_fillVector block (by omega)
      intro j hj
      apply h j (by omega)
    have hlength' : FromUniformBytes.size T * count
        ≤ (bytes.drop (FromUniformBytes.size T)).length := by
      rw [List.length_drop]
      omega
    have hrest := ih (E.fillVector block (R.state t)).1 (t + FromUniformBytes.size T) hlength' (by
      intro j hj
      rw [List.getElem?_drop, Nat.add_assoc]
      apply h (FromUniformBytes.size T + j) (by omega))
    rw [readElements, List.map_cons, (R.fillVector_state block t).2, hrest,
      List.range_succ_eq_map, List.map_cons, List.map_map, elementAt?_eq_some T _ hfirst]
    congr 1
    apply List.map_congr_left
    intro i _
    apply (elementAt?_succ T bytes i).symm

end Run

/-! ### Hashing to elements -/

variable {T} {E : Expander} {level : Nat} {message tag : List Bytes} {count : Nat}

/-- The elements that a message is hashed to are those of the bytes that the stream begins with. -/
theorem hashToField_of_start {s : E.Stream} {bytes : Bytes}
    (h : E.start level message tag (requestLength (FromUniformBytes.size T) count) = .ok s)
    (hs : E.Yields s bytes) (hlength : FromUniformBytes.size T * count ≤ bytes.length) :
  ∃ v : Vector T count, hashToField E T level message tag count = .ok v
    ∧ v.toList.map some = (List.range count).map (elementAt? T bytes)
  := by
  obtain ⟨R, rfl, hbytes⟩ := hs
  rw [hashToField, h]
  refine ⟨_, rfl, ?_⟩
  apply readElements_eq R count _ 0 hlength
  intro j hj
  rw [Nat.zero_add]
  apply hbytes j (by omega)

/-- The elements of blocks, one by one. -/
theorem elementAt?_of_blocks {v : Vector T count} {bytes : Bytes}
    (h : v.toList.map some = (List.range count).map (elementAt? T bytes)) {i : Nat} (hi : i < count) :
  elementAt? T bytes i = some v[i]
  := by
  have hget := congrArg (fun l => l[i]?) h
  simpa [hi] using hget.symm

/-- If the expander rejects the request, so is the request for elements. -/
theorem hashToField_of_start_error {reason : E.Rejection}
    (h : E.start level message tag (requestLength (FromUniformBytes.size T) count) = .error reason) :
  hashToField E T level message tag count = .error reason
  := by
  rw [hashToField, h]
  rfl

end HashToCurve
