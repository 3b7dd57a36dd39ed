import HashToCurve.Proofs.Expand.Acceptance
import HashToCurve.Proofs.Expand.Xof
import HashToCurve.Proofs.Group.Edwards25519
import HashToCurve.Suite

/-!
# The suites

Every suite computes the point of the one-shot expansion of the message, and fails only where its
expander rejects the request.  The points of the suites of `edwards25519` lie in the subgroup of
prime order.
-/

namespace HashToCurve

open Bytes FieldElement
open EdwardsPoint (subgroupOrder)
open edwards25519 (hashPoint encodePoint)

/-! ### Membership in the subgroup -/

/-- The point of a field element has the coordinates that the rational map computes. -/
theorem Elligator.toEdwards_normalize {r : FieldElement} (hr : r.Bounded) :
  ∃ P, toEdwards r = .ok P
    ∧ OnCurve edwardsD.residue P.normalize.x.residue P.normalize.y.residue
    ∧ (P.normalize == (toMontgomery r).toAffine) = true
  := by
  obtain ⟨P, hP, hdenotes⟩ := toEdwards_denotes hr
  have hnormalize := hdenotes.normalize
  use P, hP
  constructor
  · rw [hnormalize.x_eq, hnormalize.y_eq]
    apply CurvePoint.equation
  · exact hnormalize.beq (toAffine_denotes hr)

namespace Suite

/-- The maps of field elements and of byte strings return points of the curve with the coordinates
that the rational map computes.  Hashing and encoding are rejected where the expander rejects the
request, and else return points of the subgroup of prime order. -/
theorem lands_in_subgroup :
  subgroupOrder.Prime
    ∧ (∀ r : FieldElement, r.Bounded →
      ∃ P, Elligator.toEdwards r = .ok P
        ∧ OnCurve edwardsD.residue P.normalize.x.residue P.normalize.y.residue
        ∧ (P.normalize == (Elligator.toMontgomery r).toAffine) = true)
    ∧ (∀ bytes : Vector UInt8 32,
      ∃ P, Elligator.ofRepresentative bytes = .ok P
        ∧ OnCurve edwardsD.residue P.normalize.x.residue P.normalize.y.residue
        ∧ (P.normalize == (Elligator.toMontgomery (.ofBytes bytes)).toAffine) = true)
    ∧ (∀ (E : Expander) (message tag : List Bytes),
      Follows (E.start 16 message tag 96) .rejected EdwardsPoint.InSubgroup
          (edwards25519.hash E message tag)
        ∧ Follows (E.start 16 message tag 48) .rejected EdwardsPoint.InSubgroup
          (edwards25519.encode E message tag))
    ∧ ∀ (H : FixedHash) (X : ExtendableHash) (tag message : Bytes),
      Follows (Xmd.start H 16 [message] [tag] 96) (fun reason => .rejected (.xmd reason))
          EdwardsPoint.InSubgroup (edwardsXmdRO H tag message)
        ∧ Follows (Xmd.start H 16 [message] [tag] 48) (fun reason => .rejected (.xmd reason))
          EdwardsPoint.InSubgroup (edwardsXmdNU H tag message)
        ∧ Follows (Xof.start X 16 [message] [tag] 96) (fun reason => .rejected (.xof reason))
          EdwardsPoint.InSubgroup (edwardsXofRO X tag message)
        ∧ Follows (Xof.start X 16 [message] [tag] 48) (fun reason => .rejected (.xof reason))
          EdwardsPoint.InSubgroup (edwardsXofNU X tag message)
  := by
  refine ⟨CurvePoint.prime_subgroupOrder, fun r hr => Elligator.toEdwards_normalize hr,
    fun bytes => Elligator.toEdwards_normalize (bounded_ofBytes bytes), ?_, ?_⟩
  · intro E message tag
    exact ⟨edwards25519.follows_hash_inSubgroup E message tag,
      edwards25519.follows_encode_inSubgroup E message tag⟩
  · intro H X tag message
    refine ⟨?_, ?_, ?_, ?_⟩
    · exact (edwards25519.follows_hash_inSubgroup (Xmd.expander H) [message] [tag]).mapError _
    · exact (edwards25519.follows_encode_inSubgroup (Xmd.expander H) [message] [tag]).mapError _
    · exact (edwards25519.follows_hash_inSubgroup (Xof.expander X) [message] [tag]).mapError _
    · exact (edwards25519.follows_encode_inSubgroup (Xof.expander X) [message] [tag]).mapError _

/-- The element `-1` in the limbs of a difference, which are not those of its encoding. -/
theorem lands_in_subgroup_neg_one :
  (-1 : FieldElement).Bounded
    ∧ ∃ P, Elligator.toEdwards (-1) = .ok P
      ∧ OnCurve edwardsD.residue P.normalize.x.residue P.normalize.y.residue
  := by
  have hbounded := bounded_neg 1
  obtain ⟨P, hP, honCurve, -⟩ := lands_in_subgroup.2.1 (-1) hbounded
  exact ⟨hbounded, P, hP, honCurve⟩

/-! ### Agreement with the expansion in one shot -/

section Expands

variable {E : Expander} {expansion : (message tag : Bytes) → (length : Nat) → Bytes}

/-- Hashing with any expander follows it, with the point of the expansion to 96 bytes. -/
theorem follows_hash (hE : E.Expands 16 expansion) (tag message : Bytes) {δ : Type}
    (reject : E.Rejection → δ) :
  Follows (E.start 16 [message] [tag] 96) (fun reason => Failure.rejected (reject reason))
    (fun P => P.Denotes (hashPoint (expansion message tag 96)))
    ((edwards25519.hash E [message] [tag]).mapError (Failure.map reject))
  := by
  have h := (edwards25519.follows_hash_denotes hE [message] [tag]).mapError (Failure.map reject)
  rwa [List.flatten_singleton, List.flatten_singleton] at h

/-- Encoding with any expander follows it, with the point of the expansion to 48 bytes. -/
theorem follows_encode (hE : E.Expands 16 expansion) (tag message : Bytes) {δ : Type}
    (reject : E.Rejection → δ) :
  Follows (E.start 16 [message] [tag] 48) (fun reason => Failure.rejected (reject reason))
    (fun P => P.Denotes (encodePoint (expansion message tag 48)))
    ((edwards25519.encode E [message] [tag]).mapError (Failure.map reject))
  := by
  have h := (edwards25519.follows_encode_denotes hE [message] [tag]).mapError (Failure.map reject)
  rwa [List.flatten_singleton, List.flatten_singleton] at h

/-- The element of the one-way map is that of the expansion to 64 bytes. -/
theorem follows_ristretto (hE : E.Expands 16 expansion) (tag message : Bytes) {δ : Type}
    (reject : E.Rejection → δ) :
  Follows (E.start 16 [message] [tag] 64) reject
    (fun P => ∃ bytes : Vector UInt8 64, bytes.toList = expansion message tag 64
      ∧ P = RistrettoPoint.oneWayMap bytes)
    ((Ristretto255.hash E [message] [tag]).mapError reject)
  := by
  change Follows _ _ _ (((E.start 16 [message] [tag] 64).map _).mapError _)
  cases h : E.start 16 [message] [tag] 64 with
  | error reason => rfl
  | ok s =>
    have hbytes := (hE.yields_of_start _ _ _ _ h).fillVector (Vector.replicate 64 0)
      (hE.length_expansion _ _ _).symm
    rw [List.flatten_singleton, List.flatten_singleton] at hbytes
    exact ⟨_, rfl, _, hbytes, rfl⟩

end Expands

/-- The expander of a suite with its own tag accepts every message. -/
theorem exists_start_sha512 (message tag : Bytes) (length : Nat)
    (h : Xmd.rejection? sha512.outputSize 16 (totalLength [tag]) length = none) :
  ∃ s, Xmd.start sha512 16 [message] [tag] length = .ok s
  := (Xmd.decides sha512 16).start_of_none [message] h

/-- The default hash never fails, and gives the point of its suite under the default tag. -/
theorem hashDefault_denotes (message : Bytes) :
  ∃ P, hashDefault message = .ok P
    ∧ edwardsXmdRO sha512 (ofAscii defaultHashTag) message = .ok P
    ∧ P.Denotes (hashPoint (Xmd.expand sha512 message (ofAscii defaultHashTag) 96))
  := by
  obtain ⟨s, hs⟩ := exists_start_sha512 message (ofAscii defaultHashTag) 96 (by decide)
  obtain ⟨P, hP, hdenotes⟩ :=
    (follows_hash (Xmd.expands sha512 16) (ofAscii defaultHashTag) message Rejection.xmd).of_ok hs
  have hsuite : edwardsXmdRO sha512 (ofAscii defaultHashTag) message = .ok P := hP
  refine ⟨P, ?_, hsuite, hdenotes⟩
  rw [hashDefault, hsuite]
  rfl

/-- The default encoding never fails, and gives the point of its suite under the default tag. -/
theorem encodeDefault_denotes (message : Bytes) :
  ∃ P, encodeDefault message = .ok P
    ∧ edwardsXmdNU sha512 (ofAscii defaultEncodeTag) message = .ok P
    ∧ P.Denotes (encodePoint (Xmd.expand sha512 message (ofAscii defaultEncodeTag) 48))
  := by
  obtain ⟨s, hs⟩ := exists_start_sha512 message (ofAscii defaultEncodeTag) 48 (by decide)
  obtain ⟨P, hP, hdenotes⟩ :=
    (follows_encode (Xmd.expands sha512 16) (ofAscii defaultEncodeTag) message Rejection.xmd).of_ok hs
  have hsuite : edwardsXmdNU sha512 (ofAscii defaultEncodeTag) message = .ok P := hP
  refine ⟨P, ?_, hsuite, hdenotes⟩
  rw [encodeDefault, hsuite]
  rfl

/-- Every suite is rejected where its expander rejects the request.  Else the suites of
`edwards25519` return the point of the one-shot expansion to 96 bytes or to 48 bytes, and those of
`ristretto255` the image of the expansion to 64 bytes under the one-way map.  The suites with a tag
of their own reject no message. -/
theorem agrees_with_expansion (H : FixedHash) (X : ExtendableHash) (tag message : Bytes) :
  (Follows (Xmd.start H 16 [message] [tag] 96) (fun reason => .rejected (.xmd reason))
      (fun P => P.Denotes (hashPoint (Xmd.expand H message tag 96)))
      (edwardsXmdRO H tag message)
    ∧ Follows (Xmd.start H 16 [message] [tag] 48) (fun reason => .rejected (.xmd reason))
      (fun P => P.Denotes (encodePoint (Xmd.expand H message tag 48)))
      (edwardsXmdNU H tag message)
    ∧ Follows (Xof.start X 16 [message] [tag] 96) (fun reason => .rejected (.xof reason))
      (fun P => P.Denotes (hashPoint (Xof.expand X 16 message tag 96)))
      (edwardsXofRO X tag message)
    ∧ Follows (Xof.start X 16 [message] [tag] 48) (fun reason => .rejected (.xof reason))
      (fun P => P.Denotes (encodePoint (Xof.expand X 16 message tag 48)))
      (edwardsXofNU X tag message))
  ∧ (Follows (Xmd.start H 16 [message] [tag] 64) Rejection.xmd
      (fun P => ∃ bytes : Vector UInt8 64, bytes.toList = Xmd.expand H message tag 64
        ∧ P = RistrettoPoint.oneWayMap bytes)
      (ristrettoXmdRO H tag message)
    ∧ Follows (Xof.start X 16 [message] [tag] 64) Rejection.xof
      (fun P => ∃ bytes : Vector UInt8 64, bytes.toList = Xof.expand X 16 message tag 64
        ∧ P = RistrettoPoint.oneWayMap bytes)
      (ristrettoXofRO X tag message))
  ∧ (∃ P, hashDefault message = .ok P
      ∧ edwardsXmdRO sha512 (ofAscii "edwards25519_XMD:SHA-512_ELL2_RO_") message = .ok P
      ∧ P.Denotes
        (hashPoint (Xmd.expand sha512 message (ofAscii "edwards25519_XMD:SHA-512_ELL2_RO_") 96)))
  ∧ ∃ P, encodeDefault message = .ok P
      ∧ edwardsXmdNU sha512 (ofAscii "edwards25519_XMD:SHA-512_ELL2_NU_") message = .ok P
      ∧ P.Denotes
        (encodePoint (Xmd.expand sha512 message (ofAscii "edwards25519_XMD:SHA-512_ELL2_NU_") 48))
  := by
  refine ⟨⟨?_, ?_, ?_, ?_⟩, ⟨?_, ?_⟩, ?_, ?_⟩
  · exact follows_hash (Xmd.expands H 16) tag message Rejection.xmd
  · exact follows_encode (Xmd.expands H 16) tag message Rejection.xmd
  · exact follows_hash (Xof.expands X 16) tag message Rejection.xof
  · exact follows_encode (Xof.expands X 16) tag message Rejection.xof
  · exact follows_ristretto (Xmd.expands H 16) tag message Rejection.xmd
  · exact follows_ristretto (Xof.expands X 16) tag message Rejection.xof
  · apply hashDefault_denotes
  · apply encodeDefault_denotes

end Suite

end HashToCurve
