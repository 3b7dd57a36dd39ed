import HashToCurve.Proofs.Elements
import HashToCurve.Proofs.Expand.Acceptance
import HashToCurve.Proofs.Expand.Xof

/-!
# Requests for elements

The number of bytes that elements take is cut to the largest word before an expander is asked for
them.  An expander accepts no number above 65535, and rejects all of them for one reason, so that a
request is decided by the exact number.  It overwrites the whole buffer, or leaves it as it was.
-/

namespace HashToCurve

open Bytes HashToField

/-! ### Numbers of bytes that are cut -/

section Decides

variable {E : Expander} {level : Nat} {rejection? : (tagLength length : Nat) → Option E.Rejection}

/-- The number that is asked for is decided as the exact number is. -/
theorem Expander.Decides.requestLength (hE : E.Decides level rejection?)
    (tagLength size count : Nat) :
  rejection? tagLength (requestLength size count) = rejection? tagLength (size * count)
  := by
  have hmax : 65535 < maxRequest := by decide
  rcases Nat.le_total (size * count) maxRequest with hle | hge
  · rw [HashToField.requestLength, Nat.min_eq_left hle]
  · rw [HashToField.requestLength, Nat.min_eq_right hge]
    apply hE.eq_of_lt hmax (Nat.lt_of_lt_of_le hmax hge)

/-- The number that is asked for is exact if it is accepted. -/
theorem Expander.Decides.requestLength_of_none (hE : E.Decides level rejection?)
    {tagLength size count : Nat} (h : rejection? tagLength (size * count) = none) :
  HashToField.requestLength size count = size * count
  := by
  have hmax : 65535 ≤ maxRequest := by decide
  apply Nat.min_eq_left ((hE.le_of_none h).trans hmax)

variable {expansion : (message tag : Bytes) → (length : Nat) → Bytes} {T : Type} [FromUniformBytes T]

/-- A request for elements is rejected for the reason of the exact number of bytes that they take. -/
theorem hashToField_of_some (hE : E.Decides level rejection?) (message : List Bytes)
    {tag : List Bytes} {count : Nat} {reason : E.Rejection}
    (h : rejection? (totalLength tag) (FromUniformBytes.size T * count) = some reason) :
  hashToField E T level message tag count = .error reason
  := by
  apply hashToField_of_start_error
  apply hE.start_of_some message
  rw [hE.requestLength, h]

/-- A request for elements that is not rejected gives those of an expansion to the exact number of
bytes that they take. -/
theorem hashToField_of_none (hE : E.Decides level rejection?) (hexpands : E.Expands level expansion)
    (message : List Bytes) {tag : List Bytes} {count : Nat}
    (h : rejection? (totalLength tag) (FromUniformBytes.size T * count) = none) :
  ∃ v : Vector T count, hashToField E T level message tag count = .ok v
    ∧ v.toList.map some = (List.range count).map (elementAt? T
      (expansion message.flatten tag.flatten (FromUniformBytes.size T * count)))
  := by
  obtain ⟨s, hs⟩ := hE.start_of_none message ((hE.requestLength _ _ _).trans h)
  have hyields := hexpands.yields_of_start _ _ _ _ hs
  rw [hE.requestLength_of_none h] at hyields
  apply hashToField_of_start hs hyields (Nat.le_of_eq (hexpands.length_expansion _ _ _).symm)

end Decides

/-! ### Buffers of elements -/

section Buffer

variable {T : Type} [FromUniformBytes T]

/-- The outcome of a request to overwrite a buffer with the elements of some bytes.  If there is a
reason to reject it, the buffer is as it was. -/
def Overwrites {ε : Type} (reason? : Option ε) (bytes : Bytes) (buffer : List T)
    (outcome : EStateM.Result ε (List T) Unit) : Prop :=
  match reason? with
  | some reason => outcome = .error reason buffer
  | none => ∃ elements, outcome = .ok () elements
    ∧ elements.map some = (List.range buffer.length).map (elementAt? T bytes)

/-- A request overwrites its buffer as the bounds and the expansion say. -/
theorem overwriteElements_cases {E : Expander} {level : Nat}
    {rejection? : (tagLength length : Nat) → Option E.Rejection}
    {expansion : (message tag : Bytes) → (length : Nat) → Bytes} (hE : E.Decides level rejection?)
    (hexpands : E.Expands level expansion) (message tag : List Bytes) (buffer : List T) :
  Overwrites (rejection? (totalLength tag) (FromUniformBytes.size T * buffer.length))
    (expansion message.flatten tag.flatten (FromUniformBytes.size T * buffer.length)) buffer
    (overwriteElements E T level message tag buffer)
  := by
  unfold Overwrites
  split
  · rename_i hreason
    apply Buffer.replaceBy_of_error
    rw [hashToField_of_some hE message hreason]
    rfl
  · rename_i hnone
    obtain ⟨v, hv, hblocks⟩ := hashToField_of_none hE hexpands message hnone
    refine ⟨v.toList, ?_, hblocks⟩
    apply Buffer.replaceBy_of_ok
    rw [hv]
    rfl

/-- A buffer of elements of any type and of any length is overwritten with the elements of one
expansion, to the exact number of bytes that they take, if the bounds of the expander admit that
number, and it is left as it was, for the reason that the bounds give for that number, if they do
not. -/
theorem overwriteElements_exact (T : Type) [FromUniformBytes T] (level : Nat)
    (message tag : List Bytes) (buffer : List T) :
  (∀ H : FixedHash,
    Overwrites
      (Xmd.rejection? H.outputSize level (totalLength tag) (FromUniformBytes.size T * buffer.length))
      (Xmd.expand H message.flatten tag.flatten (FromUniformBytes.size T * buffer.length)) buffer
      (overwriteElements (Xmd.expander H) T level message tag buffer))
  ∧ ∀ X : ExtendableHash,
    Overwrites (Xof.rejection? level (totalLength tag) (FromUniformBytes.size T * buffer.length))
      (Xof.expand X level message.flatten tag.flatten (FromUniformBytes.size T * buffer.length))
      buffer (overwriteElements (Xof.expander X) T level message tag buffer)
  := by
  constructor
  · intro H
    apply overwriteElements_cases (Xmd.decides H level) (Xmd.expands H level)
  · intro X
    apply overwriteElements_cases (Xof.decides X level) (Xof.expands X level)

end Buffer

end HashToCurve
