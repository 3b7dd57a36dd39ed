import HashToCurve.Group.Words
import HashToCurve.Hash.Sha2
import HashToCurve.Proofs.Elements.Request
import HashToCurve.Proofs.Group.Basic

/-!
# Points of an expansion

Hashing to a group maps the two elements of one expansion to points, adds the points and clears the
cofactor.  Encoding maps the element of another expansion, to half as many bytes, and clears the
cofactor.  Each of them is rejected exactly when its own expansion is, for the same reason.
-/

namespace HashToCurve

open Bytes

/-- The only reason for which a request is rejected, if it else gives a result or stops at a fault. -/
theorem Failure.eq_rejected_iff {ε α : Type} {reason? : Option ε} {outcome : Except (Failure ε) α}
    (hsome : ∀ reason, reason? = some reason → outcome = .error (.rejected reason))
    (hnone : reason? = none → ∃ result : Except Fault α, outcome = result.mapError .fault)
    (reason : ε) :
  outcome = .error (.rejected reason) ↔ reason? = some reason
  := by
  constructor
  · intro houtcome
    cases hreason : reason? with
    | some reason' =>
      rw [hsome reason' hreason] at houtcome
      cases houtcome
      rfl
    | none =>
      obtain ⟨result, hresult⟩ := hnone hreason
      rw [hresult] at houtcome
      cases result <;> cases houtcome
  · apply hsome

namespace HashGroup

variable (G : HashGroup)

/-- The point of two elements, whose points are added before the cofactor is cleared. -/
def pointOfTwo (a b : G.Element) : Except Fault G.Point := do
  let P ← G.map a
  let Q ← G.map b
  return G.clearCofactor (G.add P Q)

/-- The point of one element. -/
def pointOfOne (a : G.Element) : Except Fault G.Point := do
  let P ← G.map a
  return G.clearCofactor P

variable {G} {E : Expander} {message tag : List Bytes}

/-- Hashing gives the point of its two elements once they are known. -/
theorem hash_eq_pointOfTwo {v : Vector G.Element 2} (hv : G.elements E message tag 2 = .ok v) :
  G.hash E message tag = (G.pointOfTwo (v.get 0) (v.get 1)).mapError .fault
  := by
  rw [hash, hv, pointOfTwo]
  change (G.mapElement E (v.get 0) >>= fun P => G.mapElement E (v.get 1) >>= _) = _
  rw [mapElement, mapElement]
  cases G.map (v.get 0) with
  | error fault => rfl
  | ok P => cases G.map (v.get 1) <;> rfl

/-- Encoding gives the point of its element once it is known. -/
theorem encode_eq_pointOfOne {v : Vector G.Element 1} (hv : G.elements E message tag 1 = .ok v) :
  G.encode E message tag = (G.pointOfOne (v.get 0)).mapError .fault
  := by
  rw [encode, hv, pointOfOne]
  change (G.mapElement E (v.get 0) >>= _) = _
  rw [mapElement]
  cases G.map (v.get 0) <;> rfl

/-! ### The construction -/

/-- Hashing and encoding give the points of the elements of an expansion each, to as many bytes as the
elements take, and are rejected for the reasons for which these expansions are. -/
structure Constructs (G : HashGroup) (E : Expander)
    (rejection? : (tagLength length : Nat) → Option E.Rejection)
    (expansion : (message tag : Bytes) → (length : Nat) → Bytes) (message tag : List Bytes) : Prop
    where
  hash_rejected_iff : ∀ reason, G.hash E message tag = .error (.rejected reason)
    ↔ rejection? (totalLength tag) (FromUniformBytes.size G.Element * 2) = some reason
  hash_of_none : rejection? (totalLength tag) (FromUniformBytes.size G.Element * 2) = none →
    ∃ a b, let okm := expansion message.flatten tag.flatten (FromUniformBytes.size G.Element * 2)
      elementAt? G.Element okm 0 = some a ∧ elementAt? G.Element okm 1 = some b
        ∧ G.hash E message tag = (G.pointOfTwo a b).mapError .fault
  encode_rejected_iff : ∀ reason, G.encode E message tag = .error (.rejected reason)
    ↔ rejection? (totalLength tag) (FromUniformBytes.size G.Element) = some reason
  encode_of_none : rejection? (totalLength tag) (FromUniformBytes.size G.Element) = none →
    ∃ a, let okm := expansion message.flatten tag.flatten (FromUniformBytes.size G.Element)
      elementAt? G.Element okm 0 = some a
        ∧ G.encode E message tag = (G.pointOfOne a).mapError .fault

variable {rejection? : (tagLength length : Nat) → Option E.Rejection}
  {expansion : (message tag : Bytes) → (length : Nat) → Bytes}

/-- A request that the bounds reject has no elements, for the reason that they give. -/
theorem elements_of_some (hE : E.Decides G.level rejection?) (message : List Bytes) {tag : List Bytes}
    {count length : Nat} {reason : E.Rejection}
    (hlength : FromUniformBytes.size G.Element * count = length)
    (h : rejection? (totalLength tag) length = some reason) :
  G.elements E message tag count = .error (.rejected reason)
  := by
  subst hlength
  rw [elements, hashToField_of_some hE message h]
  rfl

/-- A request that the bounds accept has the elements of the expansion, in order. -/
theorem elements_of_none (hE : E.Decides G.level rejection?) (hexpands : E.Expands G.level expansion)
    (message : List Bytes) {tag : List Bytes} {count length : Nat}
    (hlength : FromUniformBytes.size G.Element * count = length)
    (h : rejection? (totalLength tag) length = none) :
  ∃ v : Vector G.Element count, G.elements E message tag count = .ok v
    ∧ ∀ i (hi : i < count),
      elementAt? G.Element (expansion message.flatten tag.flatten length) i = some v[i]
  := by
  subst hlength
  obtain ⟨v, hv, hblocks⟩ := hashToField_of_none (T := G.Element) hE hexpands message h
  refine ⟨v, ?_, fun i hi => elementAt?_of_blocks hblocks hi⟩
  rw [elements, hv]
  rfl

/-- The construction over any expander that decides by lengths and expands in one shot. -/
theorem constructs (G : HashGroup) (hE : E.Decides G.level rejection?)
    (hexpands : E.Expands G.level expansion) (message tag : List Bytes) :
  G.Constructs E rejection? expansion message tag
  := by
  have hhash : rejection? (totalLength tag) (FromUniformBytes.size G.Element * 2) = none →
      ∃ a b, let okm := expansion message.flatten tag.flatten (FromUniformBytes.size G.Element * 2)
        elementAt? G.Element okm 0 = some a ∧ elementAt? G.Element okm 1 = some b
          ∧ G.hash E message tag = (G.pointOfTwo a b).mapError .fault := by
    intro hnone
    obtain ⟨v, hv, helements⟩ := elements_of_none hE hexpands message rfl hnone
    exact ⟨v.get 0, v.get 1, helements 0 (by decide), helements 1 (by decide), hash_eq_pointOfTwo hv⟩
  have hencode : rejection? (totalLength tag) (FromUniformBytes.size G.Element) = none →
      ∃ a, let okm := expansion message.flatten tag.flatten (FromUniformBytes.size G.Element)
        elementAt? G.Element okm 0 = some a
          ∧ G.encode E message tag = (G.pointOfOne a).mapError .fault := by
    intro hnone
    obtain ⟨v, hv, helements⟩ := elements_of_none hE hexpands message (Nat.mul_one _) hnone
    exact ⟨v.get 0, helements 0 (by decide), encode_eq_pointOfOne hv⟩
  refine ⟨?_, hhash, ?_, hencode⟩
  · apply Failure.eq_rejected_iff
    · intro reason hreason
      apply hash_eq_rejected (elements_of_some hE message rfl hreason)
    · intro hnone
      obtain ⟨a, b, -, -, heq⟩ := hhash hnone
      exact ⟨_, heq⟩
  · apply Failure.eq_rejected_iff
    · intro reason hreason
      apply encode_eq_rejected (elements_of_some hE message (Nat.mul_one _) hreason)
    · intro hnone
      obtain ⟨a, -, heq⟩ := hencode hnone
      exact ⟨_, heq⟩

end HashGroup

/-! ### Words -/

/-- Hashing to the words of 32 bits gives eight times the sum of the two words of an expansion to 8
bytes, and encoding eight times the word of an expansion to 4 bytes, modulo `2^32`. -/
structure HashesWords (level : Nat) (E : Expander)
    (rejection? : (tagLength length : Nat) → Option E.Rejection)
    (expansion : (message tag : Bytes) → (length : Nat) → Bytes) (message tag : List Bytes) : Prop
    where
  hash_of_none : rejection? (totalLength tag) 8 = none →
    let okm := expansion message.flatten tag.flatten 8
    (wordGroup level).hash E message tag
      = .ok (UInt32.ofNat ((toNatBE (okm.take 4) + toNatBE (okm.drop 4)) * 8))
  encode_of_none : rejection? (totalLength tag) 4 = none →
    let okm := expansion message.flatten tag.flatten 4
    (wordGroup level).encode E message tag = .ok (UInt32.ofNat (toNatBE okm * 8))

/-- The word of a block of four bytes. -/
theorem elementAt?_word (bytes : Bytes) {i : Nat} (h : 4 * (i + 1) ≤ bytes.length) :
  elementAt? UInt32 bytes i = some (UInt32.ofNat (toNatBE (blockAt 4 bytes i)))
  := elementAt?_of_le UInt32 h

/-- Over the words of 32 bits, the points are sums and multiples modulo `2^32`. -/
theorem HashGroup.Constructs.hashesWords {level : Nat} {E : Expander}
    {rejection? : (tagLength length : Nat) → Option E.Rejection}
    {expansion : (message tag : Bytes) → (length : Nat) → Bytes} {message tag : List Bytes}
    (h : (wordGroup level).Constructs E rejection? expansion message tag)
    (hlength : ∀ message tag length, (expansion message tag length).length = length) :
  HashesWords level E rejection? expansion message tag
  where
  hash_of_none hnone := by
    obtain ⟨v, w, hv, hw, hhash⟩ := h.hash_of_none hnone
    intro okm
    have hokm : okm.length = 8 := hlength _ _ _
    have hlast : blockAt 4 okm 1 = okm.drop 4 := List.take_of_length_le (by simp [hokm])
    have hv' := (elementAt?_word okm (by omega)).symm.trans hv
    have hw' := (elementAt?_word okm (by omega)).symm.trans hw
    cases hv'
    cases hw'
    rw [hhash, blockAt_zero, hlast, UInt32.ofNat_mul, UInt32.ofNat_add]
    rfl
  encode_of_none hnone := by
    obtain ⟨w, hw, hencode⟩ := h.encode_of_none hnone
    intro okm
    have hokm : okm.length = 4 := hlength _ _ _
    have hblock : blockAt 4 okm 0 = okm := List.take_of_length_le (Nat.le_of_eq hokm)
    have hw' := (elementAt?_word okm (by omega)).symm.trans hw
    cases hw'
    rw [hencode, hblock, UInt32.ofNat_mul]
    rfl

/-! ### Groups over expanders -/

/-- For every group and every expander, hashing gives the point of the two elements of the expansion
to as many bytes as they take, and encoding the point of the element of the expansion to as many
bytes as it takes.  Each is rejected exactly when the bounds of the expander reject its number of
bytes, for the reason that they give.  Over the words of 32 bits the points are sums and multiples
modulo `2^32`. -/
theorem hash_encode_exact (message tag : List Bytes) :
  (∀ H : FixedHash,
    (∀ G : HashGroup,
      G.Constructs (Xmd.expander H) (Xmd.rejection? H.outputSize G.level) (Xmd.expand H) message tag)
    ∧ ∀ level,
      HashesWords level (Xmd.expander H) (Xmd.rejection? H.outputSize level) (Xmd.expand H) message
        tag)
  ∧ ∀ X : ExtendableHash,
    (∀ G : HashGroup,
      G.Constructs (Xof.expander X) (Xof.rejection? G.level) (Xof.expand X G.level) message tag)
    ∧ ∀ level,
      HashesWords level (Xof.expander X) (Xof.rejection? level) (Xof.expand X level) message tag
  := by
  constructor
  · intro H
    have hconstructs : ∀ G : HashGroup, G.Constructs (Xmd.expander H)
        (Xmd.rejection? H.outputSize G.level) (Xmd.expand H) message tag :=
      fun G => G.constructs (Xmd.decides H G.level) (Xmd.expands H G.level) message tag
    refine ⟨hconstructs, fun level => ?_⟩
    apply (hconstructs (wordGroup level)).hashesWords (Xmd.length_expand H)
  · intro X
    have hconstructs : ∀ G : HashGroup, G.Constructs (Xof.expander X)
        (Xof.rejection? G.level) (Xof.expand X G.level) message tag :=
      fun G => G.constructs (Xof.decides X G.level) (Xof.expands X G.level) message tag
    refine ⟨hconstructs, fun level => ?_⟩
    apply (hconstructs (wordGroup level)).hashesWords (Xof.length_expand X level)

/-- With SHA-256, at a security level of 16 bytes. -/
theorem hash_encode_exact_sha256 :
  let message := [ofAscii "abc"]
  let tag := [ofAscii "QUUX-V01-CS02-with-words"]
  let okm := Xmd.expand sha256 message.flatten tag.flatten 8
  Xmd.rejection? sha256.outputSize 16 (totalLength tag) 8 = none
    ∧ (wordGroup 16).hash (Xmd.expander sha256) message tag
      = .ok (UInt32.ofNat ((toNatBE (okm.take 4) + toNatBE (okm.drop 4)) * 8))
    ∧ (wordGroup 16).hash (Xmd.expander sha256) message [] = .error (.rejected .emptyTag)
  := by
  intro message tag okm
  have haccepted : Xmd.rejection? sha256.outputSize 16 (totalLength tag) 8 = none := by decide
  have hempty : Xmd.rejection? sha256.outputSize 16 (totalLength []) 8 = some .emptyTag := by decide
  obtain ⟨-, hwords⟩ := (hash_encode_exact message tag).1 sha256
  obtain ⟨hconstructs, -⟩ := (hash_encode_exact message []).1 sha256
  exact ⟨haccepted, (hwords 16).hash_of_none haccepted,
    ((hconstructs (wordGroup 16)).hash_rejected_iff .emptyTag).mpr hempty⟩

end HashToCurve
