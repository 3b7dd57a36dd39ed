import HashToCurve.Hash.Keccak
import HashToCurve.Proofs.Overflow.Functions
import HashToCurve.Proofs.Suite

/-!
# The verdict on a suite

Whether a suite returns a point depends on the size of the hash function and on the length of the tag
alone.  The lengths that the suites ask of an expander, 96, 48 and 64 bytes, are in range for every
hash function that the security level admits, and nothing after the expander fails.
-/

namespace HashToCurve.Suite

open Bytes

/-! ### Verdicts -/

/-- The verdict of the suites with a hash function with fixed output. -/
def xmdVerdict (outputSize tagLength : Nat) : Except Xmd.Rejection Unit :=
  if outputSize < 32 then .error .hashSize
  else if tagLength = 0 then .error .emptyTag
  else if 255 < tagLength ∧ 255 < outputSize then .error .hashSize
  else .ok ()

/-- The verdict of the suites with an extendable hash function. -/
def xofVerdict (tagLength : Nat) : Except Xof.Rejection Unit :=
  if tagLength = 0 then .error .emptyTag else .ok ()

/-- Two failures are possible over a fixed hash. -/
theorem xmdVerdict_eq_error {outputSize tagLength : Nat} {reason : Xmd.Rejection}
    (h : xmdVerdict outputSize tagLength = .error reason) :
  reason = .hashSize ∨ reason = .emptyTag
  := by
  rw [xmdVerdict] at h
  split at h
  · exact .inl (Except.error.inj h).symm
  split at h
  · exact .inr (Except.error.inj h).symm
  split at h
  · exact .inl (Except.error.inj h).symm
  · cases h

/-- One failure is possible over an extendable hash. -/
theorem xofVerdict_eq_error {tagLength : Nat} {reason : Xof.Rejection}
    (h : xofVerdict tagLength = .error reason) :
  reason = .emptyTag
  := by
  rw [xofVerdict] at h
  split at h
  · exact (Except.error.inj h).symm
  · cases h

section Verdict

variable {δ α : Type} {wanted : α → Prop} {outcome : Except δ α}

/-- An outcome that follows the verdict over a fixed hash fails for its reasons alone. -/
theorem failure_of_xmdVerdict {outputSize tagLength : Nat} {reject : Xmd.Rejection → δ}
    (h : Follows (xmdVerdict outputSize tagLength) reject wanted outcome) {failure : δ}
    (hfailure : outcome = .error failure) :
  failure = reject .hashSize ∨ failure = reject .emptyTag
  := by
  obtain ⟨reason, hreason, rfl⟩ := h.of_error hfailure
  rcases xmdVerdict_eq_error hreason with rfl | rfl
  · exact .inl rfl
  · exact .inr rfl

/-- An outcome that follows the verdict over an extendable hash fails for its reason alone. -/
theorem failure_of_xofVerdict {tagLength : Nat} {reject : Xof.Rejection → δ}
    (h : Follows (xofVerdict tagLength) reject wanted outcome) {failure : δ}
    (hfailure : outcome = .error failure) :
  failure = reject .emptyTag
  := by
  obtain ⟨reason, hreason, rfl⟩ := h.of_error hfailure
  rw [xofVerdict_eq_error hreason]

variable (tag message : Bytes) {length : Nat} (hpos : 0 < length)
include hpos

/-- A hash function that the security level admits has three blocks for 96 bytes at most. -/
theorem map_start_xmd (H : FixedHash) (hle : length ≤ 96) :
  (Xmd.start H 16 [message] [tag] length).map (fun _ => ()) = xmdVerdict H.outputSize tag.length
  := by
  have htag : totalLength [tag] = tag.length := Nat.add_zero _
  apply ((Xmd.decides H 16).map_start [message] [tag] length).trans
  rw [Xmd.rejection?, xmdVerdict, htag, show 2 * 16 = 32 from rfl]
  by_cases hsize : H.outputSize < 32
  · simp only [hsize, if_true]
    rfl
  have hcount : length ⌈/⌉ H.outputSize ≤ 255 := by
    rw [ceilDiv_le_iff_le_mul H.outputSize_pos]
    omega
  have hrange : ¬ (length = 0 ∨ 65535 < length ∨ 255 < length ⌈/⌉ H.outputSize) := by omega
  simp only [hsize, hrange, if_false]
  split_ifs <;> rfl

/-- The security level of the suites is low enough to shorten every tag. -/
theorem map_start_xof (X : ExtendableHash) (hle : length ≤ 65535) :
  (Xof.start X 16 [message] [tag] length).map (fun _ => ()) = xofVerdict tag.length
  := by
  have htag : totalLength [tag] = tag.length := Nat.add_zero _
  have hrange : ¬ (length = 0 ∨ 65535 < length) := by omega
  have hlevel : ¬ (255 < tag.length ∧ 255 < 2 * 16) := by omega
  apply ((Xof.decides X 16).map_start [message] [tag] length).trans
  rw [Xof.rejection?, xofVerdict, htag]
  simp only [hrange, hlevel, if_false]
  split_ifs <;> rfl

/-- For the lengths of the suites, an outcome over a fixed hash depends on the sizes of the digest
and the tag. -/
theorem follows_xmdVerdict {H : FixedHash} {reject : Xmd.Rejection → δ} (hle : length ≤ 96)
    (h : Follows ((Xmd.expander H).start 16 [message] [tag] length) reject wanted outcome) :
  Follows (xmdVerdict H.outputSize tag.length) reject wanted outcome
  := h.of_map _ (map_start_xmd tag message hpos H hle)

/-- An outcome over an extendable hash depends on the size of the tag. -/
theorem follows_xofVerdict {X : ExtendableHash} {reject : Xof.Rejection → δ} (hle : length ≤ 65535)
    (h : Follows ((Xof.expander X).start 16 [message] [tag] length) reject wanted outcome) :
  Follows (xofVerdict tag.length) reject wanted outcome
  := h.of_map _ (map_start_xof tag message hpos X hle)

end Verdict

/-! ### Outcomes -/

/-- An element of `ristretto255` that the one-way map returns. -/
def InRange (P : RistrettoPoint) : Prop := ∃ bytes, P = .oneWayMap bytes

section Outcome

variable (H : FixedHash) (X : ExtendableHash) (tag message : Bytes)

/-- The group over the one-way map follows the expander, with an element in the range of the map. -/
theorem follows_ristretto_inRange (E : Expander) {δ : Type} (reject : E.Rejection → δ) :
  Follows (E.start 16 [message] [tag] 64) reject InRange
    ((Ristretto255.hash E [message] [tag]).mapError reject)
  := by
  change Follows _ _ _ (((E.start 16 [message] [tag] 64).map _).mapError _)
  cases E.start 16 [message] [tag] 64 with
  | error reason => rfl
  | ok s => exact ⟨_, rfl, _, rfl⟩

/-- The three suites over a fixed hash follow the same verdict. -/
theorem follows_xmd :
  Follows (xmdVerdict H.outputSize tag.length) (fun reason => .rejected (.xmd reason))
      EdwardsPoint.InSubgroup (edwardsXmdRO H tag message)
    ∧ Follows (xmdVerdict H.outputSize tag.length) (fun reason => .rejected (.xmd reason))
      EdwardsPoint.InSubgroup (edwardsXmdNU H tag message)
    ∧ Follows (xmdVerdict H.outputSize tag.length) Rejection.xmd InRange
      (ristrettoXmdRO H tag message)
  := by
  have hhash := (edwards25519.follows_hash_inSubgroup (Xmd.expander H) [message] [tag]).mapError
    (Failure.map Rejection.xmd)
  have hencode := (edwards25519.follows_encode_inSubgroup (Xmd.expander H) [message] [tag]).mapError
    (Failure.map Rejection.xmd)
  have hristretto := follows_ristretto_inRange tag message (Xmd.expander H) Rejection.xmd
  refine ⟨?_, ?_, ?_⟩
  · exact follows_xmdVerdict tag message (by decide) (by decide) hhash
  · exact follows_xmdVerdict tag message (by decide) (by decide) hencode
  · exact follows_xmdVerdict tag message (by decide) (by decide) hristretto

/-- The three suites over an extendable hash follow the same verdict. -/
theorem follows_xof :
  Follows (xofVerdict tag.length) (fun reason => .rejected (.xof reason))
      EdwardsPoint.InSubgroup (edwardsXofRO X tag message)
    ∧ Follows (xofVerdict tag.length) (fun reason => .rejected (.xof reason))
      EdwardsPoint.InSubgroup (edwardsXofNU X tag message)
    ∧ Follows (xofVerdict tag.length) Rejection.xof InRange (ristrettoXofRO X tag message)
  := by
  have hhash := (edwards25519.follows_hash_inSubgroup (Xof.expander X) [message] [tag]).mapError
    (Failure.map Rejection.xof)
  have hencode := (edwards25519.follows_encode_inSubgroup (Xof.expander X) [message] [tag]).mapError
    (Failure.map Rejection.xof)
  have hristretto := follows_ristretto_inRange tag message (Xof.expander X) Rejection.xof
  refine ⟨?_, ?_, ?_⟩
  · exact follows_xofVerdict tag message (by decide) (by decide) hhash
  · exact follows_xofVerdict tag message (by decide) (by decide) hencode
  · exact follows_xofVerdict tag message (by decide) (by decide) hristretto

/-- The suites follow the verdicts, whatever the message, and return points of the subgroup of prime
order or elements of `ristretto255` else.  So they fail for three reasons only, none of which is the
length wanted, the security level or a broken precondition, and the variants accept the same tags with
the same hash function, whatever their messages.  No position leaves its block on the stream of an
accepted request, and nothing overflows on the way from a block of bytes to the point.  The suites with
a tag of their own reject no message. -/
theorem outcome_exact :
  (Follows (xmdVerdict H.outputSize tag.length) (fun reason => .rejected (.xmd reason))
      EdwardsPoint.InSubgroup (edwardsXmdRO H tag message)
    ∧ Follows (xmdVerdict H.outputSize tag.length) (fun reason => .rejected (.xmd reason))
      EdwardsPoint.InSubgroup (edwardsXmdNU H tag message)
    ∧ Follows (xmdVerdict H.outputSize tag.length) Rejection.xmd InRange
      (ristrettoXmdRO H tag message))
  ∧ (Follows (xofVerdict tag.length) (fun reason => .rejected (.xof reason))
      EdwardsPoint.InSubgroup (edwardsXofRO X tag message)
    ∧ Follows (xofVerdict tag.length) (fun reason => .rejected (.xof reason))
      EdwardsPoint.InSubgroup (edwardsXofNU X tag message)
    ∧ Follows (xofVerdict tag.length) Rejection.xof InRange (ristrettoXofRO X tag message))
  ∧ ((∀ outcome ∈ [edwardsXmdRO H tag message, edwardsXmdNU H tag message,
        edwardsXofRO X tag message, edwardsXofNU X tag message],
      ∀ failure, outcome = .error failure →
        failure ∈ [.rejected (.xmd .hashSize), .rejected (.xmd .emptyTag), .rejected (.xof .emptyTag)])
    ∧ ∀ outcome ∈ [ristrettoXmdRO H tag message, ristrettoXofRO X tag message],
      ∀ failure, outcome = .error failure →
        failure ∈ [.xmd .hashSize, .xmd .emptyTag, .xof .emptyTag])
  ∧ (∀ message' message'' : Bytes,
    (edwardsXmdNU H tag message').isOk = (edwardsXmdRO H tag message).isOk
      ∧ (ristrettoXmdRO H tag message'').isOk = (edwardsXmdRO H tag message).isOk
      ∧ (edwardsXofNU X tag message').isOk = (edwardsXofRO X tag message).isOk
      ∧ (ristrettoXofRO X tag message'').isOk = (edwardsXofRO X tag message).isOk)
  ∧ ((∀ (length : Nat) (s : Xmd.Stream H), Xmd.start H 16 [message] [tag] length = .ok s →
      ∀ buffers, s.fillEachChecked buffers = some ((Xmd.expander H).fillEach buffers s))
    ∧ ∀ block : Vector UInt8 48, Checked.compressedOfBlock block
      = some (Elligator.toMontgomery (.ofUniformBytes block)).toAffine.compress)
  ∧ (∃ P, hashDefault message = .ok P) ∧ ∃ P, encodeDefault message = .ok P
  := by
  have hxmd := follows_xmd H tag message
  have hxof := follows_xof X tag message
  refine ⟨hxmd, hxof, ⟨?_, ?_⟩, ?_, ⟨?_, Checked.compressedOfBlock_eq⟩, ?_, ?_⟩
  · intro outcome houtcome failure hfailure
    simp only [List.mem_cons, List.not_mem_nil, or_false] at houtcome ⊢
    rcases houtcome with rfl | rfl | rfl | rfl
    · have hreason := failure_of_xmdVerdict hxmd.1 hfailure
      tauto
    · have hreason := failure_of_xmdVerdict hxmd.2.1 hfailure
      tauto
    · exact .inr (.inr (failure_of_xofVerdict hxof.1 hfailure))
    · exact .inr (.inr (failure_of_xofVerdict hxof.2.1 hfailure))
  · intro outcome houtcome failure hfailure
    simp only [List.mem_cons, List.not_mem_nil, or_false] at houtcome ⊢
    rcases houtcome with rfl | rfl
    · have hreason := failure_of_xmdVerdict hxmd.2.2 hfailure
      tauto
    · exact .inr (.inr (failure_of_xofVerdict hxof.2.2 hfailure))
  · intro message' message''
    refine ⟨?_, ?_, ?_, ?_⟩
    · rw [hxmd.1.isOk_eq, (follows_xmd H tag message').2.1.isOk_eq]
    · rw [hxmd.1.isOk_eq, (follows_xmd H tag message'').2.2.isOk_eq]
    · rw [hxof.1.isOk_eq, (follows_xof X tag message').2.1.isOk_eq]
    · rw [hxof.1.isOk_eq, (follows_xof X tag message'').2.2.isOk_eq]
  · intro length s hs buffers
    obtain ⟨-, -, -, t, -, rfl⟩ := Xmd.start_eq_ok hs
    apply Xmd.Stream.Valid.fillEachChecked_eq (Nat.zero_le _)
  · obtain ⟨P, hP, -⟩ := hashDefault_denotes message
    exact ⟨P, hP⟩
  · obtain ⟨P, hP, -⟩ := encodeDefault_denotes message
    exact ⟨P, hP⟩

/-- An empty tag. -/
theorem outcome_exact_nil :
  edwardsXmdRO sha512 [] [1] = .error (.rejected (.xmd .emptyTag))
    ∧ (.rejected (.xmd .emptyTag) : Failure Rejection)
      ∈ [.rejected (.xmd .hashSize), .rejected (.xmd .emptyTag), .rejected (.xof .emptyTag)]
  := by
  obtain ⟨⟨hfollows, -⟩, -, ⟨hfailures, -⟩, -⟩ := outcome_exact sha512 shake128 [] [1]
  have herror : edwardsXmdRO sha512 [] [1] = .error (.rejected (.xmd .emptyTag)) := hfollows
  exact ⟨herror, hfailures _ (by simp) _ herror⟩

end Outcome

end HashToCurve.Suite
