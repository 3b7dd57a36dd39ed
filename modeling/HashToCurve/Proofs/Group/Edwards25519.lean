import HashToCurve.Group.Edwards25519
import HashToCurve.Proofs.Elligator.Edwards
import HashToCurve.Proofs.Group.Basic
import HashToCurve.Proofs.HashToField

/-!
# Hashing to the subgroup of prime order

Hashing to `edwards25519` fails only where the expander rejects the request.  Otherwise the point
that is returned denotes eight times the point of one residue, or of the sum of those of two, hence
lies in the subgroup of prime order.
-/

namespace HashToCurve

open FieldElement HashToField
open Residue (toCurve)

/-- The point lies on the curve, and the order of the subgroup annihilates it. -/
def EdwardsPoint.InSubgroup (P : EdwardsPoint) : Prop :=
  ∃ R : CurvePoint, P.Denotes R ∧ subgroupOrder • R = 0

/-- A point that denotes a multiple of the cofactor lies in the subgroup. -/
theorem EdwardsPoint.Denotes.inSubgroup {P : EdwardsPoint} {R : CurvePoint}
    (hP : P.Denotes (8 • R)) :
  P.InSubgroup
  := ⟨8 • R, hP, R.subgroupOrder_nsmul_eight_nsmul⟩

namespace edwards25519

/-- The point of two blocks of 48 bytes: the sum of the points of their residues, with the cofactor
cleared. -/
noncomputable def hashPoint (bytes : Bytes) : CurvePoint :=
  8 • (toCurve (Residue.ofBlock bytes 0) + toCurve (Residue.ofBlock bytes 1))

/-- The point of one block of 48 bytes: the point of its residue, with the cofactor cleared. -/
noncomputable def encodePoint (bytes : Bytes) : CurvePoint := 8 • toCurve (Residue.ofBlock bytes 0)

variable {E : Expander} {message tag : List Bytes}

theorem elements_eq (count : Nat) :
  edwards25519.elements E message tag count
    = (hashToField E FieldElement 16 message tag count).mapError .rejected
  := rfl

/-- The map of a bounded element succeeds, with the point of its residue. -/
theorem mapElement_denotes {r : FieldElement} (hr : r.Bounded) :
  ∃ P, edwards25519.mapElement E r = .ok P ∧ P.Denotes (toCurve r.residue)
  := by
  obtain ⟨P, hP, hdenotes⟩ := Elligator.toEdwards_denotes hr
  use P
  constructor
  · change (Elligator.toEdwards r).mapError _ = _
    rw [hP]
    rfl
  · exact hdenotes

/-- The elements are obtained from every stream that the expander starts. -/
theorem exists_hashToField (count : Nat) {s : E.Stream}
    (h : E.start 16 message tag (requestLength 48 count) = .ok s) :
  ∃ v, hashToField E FieldElement 16 message tag count = .ok v
  := by
  change ∃ v, (E.start 16 message tag (requestLength 48 count)).map _ = .ok v
  rw [h]
  exact ⟨_, rfl⟩

/-- The point of two elements. -/
theorem hash_of_elements {v : Vector FieldElement 2}
    (hv : hashToField E FieldElement 16 message tag 2 = .ok v) :
  ∃ P, edwards25519.hash E message tag = .ok P
    ∧ P.Denotes (8 • (toCurve (v.get 0).residue + toCurve (v.get 1).residue))
  := by
  have hbounded := bounded_hashToField hv
  obtain ⟨P, hP, hPdenotes⟩ := mapElement_denotes (E := E) (hbounded 0)
  obtain ⟨Q, hQ, hQdenotes⟩ := mapElement_denotes (E := E) (hbounded 1)
  use EdwardsPoint.clearCofactor (EdwardsPoint.add P Q)
  constructor
  · apply HashGroup.hash_eq_ok _ hP hQ
    rw [elements_eq, hv]
    rfl
  · exact (hPdenotes.add hQdenotes).clearCofactor

/-- The point of one element. -/
theorem encode_of_elements {v : Vector FieldElement 1}
    (hv : hashToField E FieldElement 16 message tag 1 = .ok v) :
  ∃ P, edwards25519.encode E message tag = .ok P ∧ P.Denotes (8 • toCurve (v.get 0).residue)
  := by
  obtain ⟨P, hP, hPdenotes⟩ := mapElement_denotes (E := E) (bounded_hashToField hv 0)
  use EdwardsPoint.clearCofactor P
  constructor
  · apply HashGroup.encode_eq_ok _ hP
    rw [elements_eq, hv]
    rfl
  · exact hPdenotes.clearCofactor

/-! ### Outcomes -/

/-- What is made from the elements of a request is rejected where the expander rejects. -/
theorem follows_of_elements (count : Nat) {wanted : EdwardsPoint → Prop}
    {outcome : Except (Failure E.Rejection) EdwardsPoint}
    (hrejected : ∀ reason, edwards25519.elements E message tag count = .error (.rejected reason) →
      outcome = .error (.rejected reason))
    (hpoint : ∀ s v, E.start 16 message tag (requestLength 48 count) = .ok s →
      hashToField E FieldElement 16 message tag count = .ok v → ∃ P, outcome = .ok P ∧ wanted P) :
  Follows (E.start 16 message tag (requestLength 48 count)) .rejected wanted outcome
  := by
  cases h : E.start 16 message tag (requestLength 48 count) with
  | error reason =>
    apply hrejected
    rw [elements_eq, hashToField_of_start_error h]
    rfl
  | ok s =>
    obtain ⟨v, hv⟩ := exists_hashToField count h
    exact hpoint s v h hv

/-- Hashing is rejected where the expander rejects, and returns a point otherwise. -/
theorem follows_hash {wanted : EdwardsPoint → Prop}
    (hwanted : ∀ s v P, E.start 16 message tag 96 = .ok s →
      hashToField E FieldElement 16 message tag 2 = .ok v →
      P.Denotes (8 • (toCurve (v.get 0).residue + toCurve (v.get 1).residue)) → wanted P) :
  Follows (E.start 16 message tag 96) .rejected wanted (edwards25519.hash E message tag)
  := by
  apply follows_of_elements 2
  · intro reason hreason
    apply HashGroup.hash_eq_rejected hreason
  · intro s v h hv
    obtain ⟨P, hP, hdenotes⟩ := hash_of_elements hv
    exact ⟨P, hP, hwanted s v P h hv hdenotes⟩

/-- Encoding is rejected where the expander rejects, and returns a point otherwise. -/
theorem follows_encode {wanted : EdwardsPoint → Prop}
    (hwanted : ∀ s v P, E.start 16 message tag 48 = .ok s →
      hashToField E FieldElement 16 message tag 1 = .ok v →
      P.Denotes (8 • toCurve (v.get 0).residue) → wanted P) :
  Follows (E.start 16 message tag 48) .rejected wanted (edwards25519.encode E message tag)
  := by
  apply follows_of_elements 1
  · intro reason hreason
    apply HashGroup.encode_eq_rejected hreason
  · intro s v h hv
    obtain ⟨P, hP, hdenotes⟩ := encode_of_elements hv
    exact ⟨P, hP, hwanted s v P h hv hdenotes⟩

/-- Hashing follows the expander, with a point of the subgroup. -/
theorem follows_hash_inSubgroup (E : Expander) (message tag : List Bytes) :
  Follows (E.start 16 message tag 96) .rejected EdwardsPoint.InSubgroup
    (edwards25519.hash E message tag)
  := follows_hash fun _ _ _ _ _ hP => hP.inSubgroup

/-- Encoding follows the expander, with a point of the subgroup. -/
theorem follows_encode_inSubgroup (E : Expander) (message tag : List Bytes) :
  Follows (E.start 16 message tag 48) .rejected EdwardsPoint.InSubgroup
    (edwards25519.encode E message tag)
  := follows_encode fun _ _ _ _ _ hP => hP.inSubgroup

section Expands

variable {expansion : (message tag : Bytes) → (length : Nat) → Bytes}

/-- The point that is returned is that of the expansion. -/
theorem follows_hash_denotes (hE : E.Expands 16 expansion) (message tag : List Bytes) :
  Follows (E.start 16 message tag 96) .rejected
    (fun P => P.Denotes (hashPoint (expansion message.flatten tag.flatten 96)))
    (edwards25519.hash E message tag)
  := by
  apply follows_hash
  intro s v P h hv hP
  have hresidue := residue_get_hashToField h (hE.yields_of_start _ _ _ _ h)
    (hE.length_expansion _ _ _).ge hv
  rw [hresidue, hresidue] at hP
  exact hP

/-- Encoding follows the expander, with the point of the expansion to 48 bytes. -/
theorem follows_encode_denotes (hE : E.Expands 16 expansion) (message tag : List Bytes) :
  Follows (E.start 16 message tag 48) .rejected
    (fun P => P.Denotes (encodePoint (expansion message.flatten tag.flatten 48)))
    (edwards25519.encode E message tag)
  := by
  apply follows_encode
  intro s v P h hv hP
  have hresidue := residue_get_hashToField h (hE.yields_of_start _ _ _ _ h)
    (hE.length_expansion _ _ _).ge hv
  rw [hresidue] at hP
  exact hP

end Expands

end edwards25519

end HashToCurve
