import HashToCurve.Proofs.Elements
import HashToCurve.Proofs.Field.WideReduction

/-!
# Field elements of a stream

The field elements that are read from a stream are those of its consecutive blocks of 48 bytes, each
read as a number modulo `p`, most significant byte first.
-/

namespace HashToCurve

open Bytes FieldElement HashToField

/-- The residue of the block of 48 bytes with a given number. -/
def Residue.ofBlock (bytes : Bytes) (i : Nat) : Residue := toNatBE ((bytes.drop (48 * i)).take 48)

namespace HashToField

variable {E : Expander}

/-- The elements that are read are bounded, whatever the bytes are. -/
theorem bounded_readElements (count : Nat) (block : Vector UInt8 48) (s : E.Stream) :
  ∀ a ∈ readElements E FieldElement count block s, a.Bounded
  := by
  induction count generalizing block s with
  | zero => simp [readElements]
  | succ count ih =>
    rw [readElements, List.forall_mem_cons]
    exact ⟨bounded_ofUniformBytes _, ih _ _⟩

/-- The residue of the element of a block. -/
theorem residue_elementAt? {bytes : Bytes} {i : Nat} (h : 48 * (i + 1) ≤ bytes.length) :
  (elementAt? FieldElement bytes i).map residue = some (Residue.ofBlock bytes i)
  := by
  rw [elementAt?_of_le FieldElement h, Option.map_some]
  apply congrArg some
  apply residue_ofUniformBytes

/-- The residues of the elements of blocks. -/
theorem map_residue_of_blocks {elements : List FieldElement} {count : Nat} {bytes : Bytes}
    (hlength : 48 * count ≤ bytes.length)
    (h : elements.map some = (List.range count).map (elementAt? FieldElement bytes)) :
  elements.map residue = (List.range count).map (Residue.ofBlock bytes)
  := by
  have hresidues := congrArg (List.map (Option.map residue)) h
  rw [List.map_map, List.map_map] at hresidues
  apply List.map_injective_iff.mpr (Option.some_injective Residue)
  rw [List.map_map, List.map_map]
  apply hresidues.trans
  apply List.map_congr_left
  intro i hi
  apply residue_elementAt?
  have hlt := List.mem_range.mp hi
  omega

end HashToField

variable {E : Expander} {level : Nat} {message tag : List Bytes} {count : Nat}

/-- The elements that a message is hashed to are those of the bytes that the stream begins with. -/
theorem hashToField_ok {s : E.Stream} {bytes : Bytes}
    (h : E.start level message tag (requestLength 48 count) = .ok s) (hs : E.Yields s bytes)
    (hlength : 48 * count ≤ bytes.length) {v : Vector FieldElement count}
    (hv : hashToField E FieldElement level message tag count = .ok v) :
  v.toList.map residue = (List.range count).map (Residue.ofBlock bytes)
  := by
  obtain ⟨v', hv', hblocks⟩ := hashToField_of_start (T := FieldElement) h hs hlength
  rw [hv] at hv'
  cases hv'
  apply map_residue_of_blocks hlength hblocks

/-- Each element denotes the number that its block of the expansion writes. -/
theorem residue_get_hashToField {s : E.Stream} {bytes : Bytes}
    (h : E.start level message tag (requestLength 48 count) = .ok s) (hs : E.Yields s bytes)
    (hlength : 48 * count ≤ bytes.length) {v : Vector FieldElement count}
    (hv : hashToField E FieldElement level message tag count = .ok v) (i : Fin count) :
  (v.get i).residue = Residue.ofBlock bytes i
  := by
  have hi := congrArg (fun l => l[i.val]?) (hashToField_ok h hs hlength hv)
  change v[i.val].residue = _
  simpa using hi

/-- The elements of a request are bounded. -/
theorem bounded_hashToField {v : Vector FieldElement count}
    (hv : hashToField E FieldElement level message tag count = .ok v) (i : Fin count) :
  (v.get i).Bounded
  := by
  have hmem : v.get i ∈ v.toList := Vector.mem_toList_iff.mpr (Vector.getElem_mem i.isLt)
  change (E.start level message tag (requestLength 48 count)).map _ = _ at hv
  obtain ⟨s, -, rfl⟩ := exists_of_map_eq_ok hv
  exact bounded_readElements _ _ _ _ hmem

end HashToCurve
