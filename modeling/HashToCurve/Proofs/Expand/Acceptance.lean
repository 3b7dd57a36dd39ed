import HashToCurve.Proofs.Expand.Xmd
import HashToCurve.Suite

/-!
# Accepted requests

Which requests are rejected and why, and that nothing can go wrong with an accepted one.  The second
part is stated through a twin of the stream that tests what the stream relies on: that the position
of a byte is in its block, and that the number of a block fits in a byte.  The twin stops where a test
fails, and it never stops on the stream of an accepted request.
-/

namespace HashToCurve

open Bytes

/-! ### Tags -/

namespace Tag

/-- The byte after a tag is its length, which is 255 at most. -/
theorem toNat_lengthByte (t : Tag) :
  t.lengthByte.toNat = t.bytes.length
  := UInt8.toNat_ofNat_of_lt' (Nat.lt_succ_of_le t.length_le)

variable {ε : Type} {size : Nat} (shorten : Bytes → Vector UInt8 size) (isEmpty cannotShorten : ε)
  (slices : List Bytes)

/-- Slices without bytes make no tag, and long ones only if they can be shortened. -/
theorem ofSlices_cases :
  if totalLength slices = 0 then
    ofSlices shorten isEmpty cannotShorten slices = .error isEmpty
  else if 255 < totalLength slices ∧ 255 < size then
    ofSlices shorten isEmpty cannotShorten slices = .error cannotShorten
  else ∃ t, ofSlices shorten isEmpty cannotShorten slices = .ok t
  := by
  by_cases hempty : totalLength slices = 0
  · simp only [ofSlices, hempty, if_true]
  by_cases hshort : totalLength slices ≤ 255
  · have hlong : ¬ (255 < totalLength slices ∧ 255 < size) := by omega
    simp only [ofSlices, hempty, hshort, hlong, if_false, dif_pos]
    exact ⟨_, rfl⟩
  by_cases hsize : size ≤ 255
  · have hlong : ¬ (255 < totalLength slices ∧ 255 < size) := by omega
    simp only [ofSlices, hempty, hshort, hsize, hlong, if_false, dif_pos, dif_neg, not_false_eq_true]
    exact ⟨_, rfl⟩
  · have hlong : 255 < totalLength slices ∧ 255 < size := by omega
    simp only [ofSlices, hempty, hshort, hsize, hlong, if_false, if_true, dif_neg,
      not_false_eq_true, and_self]

/-- What is made from a tag is rejected as the tag is. -/
theorem map_ofSlices_cases {σ : Type} (f : Tag → σ) :
  match if totalLength slices = 0 then some isEmpty
    else if 255 < totalLength slices ∧ 255 < size then some cannotShorten else none with
  | some reason => (ofSlices shorten isEmpty cannotShorten slices).map f = .error reason
  | none => ∃ t, (ofSlices shorten isEmpty cannotShorten slices).map f = .ok (f t)
  := by
  have hcases := ofSlices_cases shorten isEmpty cannotShorten slices
  split at hcases
  · rename_i hempty
    rw [if_pos hempty, hcases]
    rfl
  · rename_i hempty
    rw [if_neg hempty]
    split at hcases
    · rename_i hlong
      rw [if_pos hlong, hcases]
      rfl
    · rename_i hlong
      obtain ⟨t, ht⟩ := hcases
      rw [if_neg hlong, ht]
      exact ⟨t, rfl⟩

end Tag

/-! ### Rejections -/

namespace Xmd

/-- Why a request is rejected, by the bounds in the order in which they are tested. -/
def rejection? (outputSize level tagLength length : Nat) : Option Rejection :=
  if outputSize < 2 * level then some .hashSize
  else if length = 0 ∨ 65535 < length ∨ 255 < length ⌈/⌉ outputSize then some .length
  else if tagLength = 0 then some .emptyTag
  else if 255 < tagLength ∧ 255 < outputSize then some .hashSize
  else none

theorem start_cases (H : FixedHash) (level : Nat) (message tag : List Bytes) (length : Nat) :
  match rejection? H.outputSize level (totalLength tag) length with
  | some reason => start H level message tag length = .error reason
  | none => ∃ t, start H level message tag length
      = .ok (Stream.start H message (UInt16.ofNat length) t (UInt8.ofNat (length ⌈/⌉ H.outputSize)))
        ∧ length ⌈/⌉ H.outputSize ≤ 255
  := by
  have htag := Tag.map_ofSlices_cases H.digest Rejection.emptyTag Rejection.hashSize tag fun t =>
    Stream.start H message (UInt16.ofNat length) t (UInt8.ofNat (length ⌈/⌉ H.outputSize))
  rw [start_eq, rejection?, Xmd.tag]
  by_cases hlevel : H.outputSize < 2 * level
  · simp only [hlevel, if_true]
  by_cases hlength : length = 0 ∨ 65535 < length ∨ 255 < length ⌈/⌉ H.outputSize
  · simp only [hlevel, hlength, if_true, if_false]
  simp only [hlevel, hlength, if_false]
  split at htag
  · rename_i hreason
    rw [hreason]
    exact htag
  · rename_i hreason
    obtain ⟨t, ht⟩ := htag
    rw [hreason]
    exact ⟨t, ht, by omega⟩

end Xmd

namespace Xof

/-- Why a request is rejected, by the bounds in the order in which they are tested. -/
def rejection? (level tagLength length : Nat) : Option Rejection :=
  if length = 0 ∨ 65535 < length then some .length
  else if tagLength = 0 then some .emptyTag
  else if 255 < tagLength ∧ 255 < 2 * level then some .securityLevel
  else none

theorem start_cases (X : ExtendableHash) (level : Nat) (message tag : List Bytes) (length : Nat) :
  match rejection? level (totalLength tag) length with
  | some reason => start X level message tag length = .error reason
  | none => ∃ t, start X level message tag length
      = .ok (X.reader (readerInput message (UInt16.ofNat length) t))
        ∧ 1 ≤ length ∧ length ≤ 65535
  := by
  have htag := Tag.map_ofSlices_cases (X.squeeze (2 * level)) Rejection.emptyTag
    Rejection.securityLevel tag fun t => X.reader (readerInput message (UInt16.ofNat length) t)
  rw [start, rejection?, Xof.tag, Expander.lengthWord?]
  by_cases hlength : length = 0 ∨ 65535 < length
  · simp only [hlength, if_true]
  simp only [hlength, if_false]
  split at htag
  · rename_i hreason
    rw [hreason]
    exact htag
  · rename_i hreason
    obtain ⟨t, ht⟩ := htag
    rw [hreason]
    exact ⟨t, ht, by omega, by omega⟩

end Xof

/-! ### Decisions -/

/-- An expander at a security level decides by the length of the tag and the number of bytes.  It
accepts no number above 65535, and rejects all of them for one reason. -/
structure Expander.Decides (E : Expander) (level : Nat)
    (rejection? : (tagLength length : Nat) → Option E.Rejection) : Prop where
  start_of_some : ∀ message {tag length reason}, rejection? (totalLength tag) length = some reason →
    E.start level message tag length = .error reason
  start_of_none : ∀ message {tag length}, rejection? (totalLength tag) length = none →
    ∃ s, E.start level message tag length = .ok s
  le_of_none : ∀ {tagLength length}, rejection? tagLength length = none → length ≤ 65535
  eq_of_lt : ∀ {tagLength length length'}, 65535 < length → 65535 < length' →
    rejection? tagLength length = rejection? tagLength length'

/-- The security level comes first, then the number of bytes. -/
theorem Xmd.rejection?_of_lt {length : Nat} (outputSize level tagLength : Nat) (h : 65535 < length) :
  rejection? outputSize level tagLength length
    = if outputSize < 2 * level then some .hashSize else some .length
  := by simp only [rejection?, h, true_or, or_true, if_true]

theorem Xof.rejection?_of_lt {length : Nat} (level tagLength : Nat) (h : 65535 < length) :
  rejection? level tagLength length = some .length
  := by simp only [rejection?, h, or_true, if_true]

/-- The bounds decide which requests the expander over a fixed hash rejects, and why. -/
theorem Xmd.decides (H : FixedHash) (level : Nat) :
  (expander H).Decides level (rejection? H.outputSize level)
  where
  start_of_some message tag length reason h := by
    have hcases := Xmd.start_cases H level message tag length
    rw [h] at hcases
    exact hcases
  start_of_none message tag length h := by
    have hcases := Xmd.start_cases H level message tag length
    rw [h] at hcases
    obtain ⟨t, ht, -⟩ := hcases
    exact ⟨_, ht⟩
  le_of_none h := by
    by_contra hlong
    rw [rejection?_of_lt _ _ _ (Nat.lt_of_not_le hlong)] at h
    split at h <;> cases h
  eq_of_lt h h' := (rejection?_of_lt _ _ _ h).trans (rejection?_of_lt _ _ _ h').symm

/-- The bounds decide which requests the expander over an extendable hash rejects, and why. -/
theorem Xof.decides (X : ExtendableHash) (level : Nat) :
  (expander X).Decides level (rejection? level)
  where
  start_of_some message tag length reason h := by
    have hcases := Xof.start_cases X level message tag length
    rw [h] at hcases
    exact hcases
  start_of_none message tag length h := by
    have hcases := Xof.start_cases X level message tag length
    rw [h] at hcases
    obtain ⟨t, ht, -⟩ := hcases
    exact ⟨_, ht⟩
  le_of_none h := by
    by_contra hlong
    rw [rejection?_of_lt _ _ (Nat.lt_of_not_le hlong)] at h
    cases h
  eq_of_lt h h' := (rejection?_of_lt _ _ h).trans (rejection?_of_lt _ _ h').symm

/-- The reason of a rejection, if there is one, tells whether the request is accepted. -/
theorem Expander.Decides.map_start {E : Expander} {level : Nat}
    {rejection? : (tagLength length : Nat) → Option E.Rejection} (hE : E.Decides level rejection?)
    (message tag : List Bytes) (length : Nat) :
  (E.start level message tag length).map (fun _ => ())
    = (rejection? (totalLength tag) length).elim (.ok ()) .error
  := by
  cases hrejection : rejection? (totalLength tag) length with
  | some reason =>
    rw [hE.start_of_some message hrejection]
    rfl
  | none =>
    obtain ⟨s, hs⟩ := hE.start_of_none message hrejection
    rw [hs]
    rfl

/-! ### The twin of the stream -/

namespace Xmd.Stream

variable {H : FixedHash}

/-- The byte at the current position, which is tested to be in the block. -/
def readChecked (s : Stream H) : Option (UInt8 × Stream H) :=
  if h : s.offset < H.outputSize then
    some (s.block[s.offset], { s with offset := s.offset + 1 })
  else none

/-- The state at the start of the next block, whose number is tested to fit in a byte. -/
def advanceChecked (s : Stream H) : Option (Stream H) :=
  if s.index.toNat + 1 < 256 then some s.advance else none

/-- The next byte, unless the stream is dry.  A block is left when the position is at its end. -/
def nextChecked (s : Stream H) : Option (Option (UInt8 × Stream H)) :=
  if s.offset = H.outputSize then
    if s.index < s.count then s.advanceChecked.bind fun s => s.readChecked.map some
    else some none
  else s.readChecked.map some

/-- A buffer overwritten from a stream, and the state of the stream after it. -/
def fillChecked : (buffer : Bytes) → Stream H → Option (Bytes × Stream H)
  | [], s => some ([], s)
  | old :: rest, s =>
    s.nextChecked.bind fun
      | some (b, s) => (fillChecked rest s).map fun (filled, s) => (b :: filled, s)
      | none => some (old :: rest, s)

/-- The buffers overwritten one after the other, each with the state of the stream after it. -/
def fillEachChecked : (buffers : List Bytes) → Stream H → Option (List (Bytes × Stream H))
  | [], _ => some []
  | buffer :: rest, s =>
    (s.fillChecked buffer).bind fun r => (fillEachChecked rest r.2).map (r :: ·)

/-- The position is in the current block or at its end. -/
def Valid (s : Stream H) : Prop := s.offset ≤ H.outputSize

theorem readChecked_of_lt {s : Stream H} (h : s.offset < H.outputSize) :
  s.readChecked = some (s.block[s.offset], { s with offset := s.offset + 1 })
  := dif_pos h

/-- The number of a block that is followed by another one is not the largest byte. -/
theorem advanceChecked_of_lt {s : Stream H} (h : s.index < s.count) :
  s.advanceChecked = some s.advance
  := by
  have hcount := s.count.toNat_lt
  rw [UInt8.lt_iff_toNat_lt] at h
  apply if_pos
  omega

/-- A read from a valid state passes its checks. -/
theorem Valid.nextChecked_eq {s : Stream H} (hs : s.Valid) :
  s.nextChecked = some s.next?
  := by
  rw [nextChecked]
  rcases Nat.lt_or_eq_of_le hs with hin | hend
  · rw [if_neg (Nat.ne_of_lt hin), readChecked_of_lt hin, next?_of_lt hin]
    rfl
  · rw [if_pos hend]
    by_cases hindex : s.index < s.count
    · rw [if_pos hindex, advanceChecked_of_lt hindex, Option.bind_some,
        readChecked_of_lt (s := s.advance) H.outputSize_pos, next?_of_le hend.ge hindex]
      rfl
    · rw [if_neg hindex, next?_dry hend.ge hindex]

/-- A step keeps the position in the block or at its end. -/
theorem Valid.next? {s s' : Stream H} {b : UInt8} (hs : s.Valid) (h : s.next? = some (b, s')) :
  s'.Valid
  := by
  rcases Nat.lt_or_eq_of_le hs with hin | hend
  · rw [next?_of_lt hin] at h
    cases h
    exact hin
  · by_cases hindex : s.index < s.count
    · rw [next?_of_le hend.ge hindex] at h
      cases h
      exact H.outputSize_pos
    · rw [next?_dry hend.ge hindex] at h
      cases h

/-- Filling a buffer from a valid state passes its checks, and leaves a valid state. -/
theorem Valid.fillChecked_eq {s : Stream H} (hs : s.Valid) (buffer : Bytes) :
  s.fillChecked buffer = some ((expander H).fill buffer s)
    ∧ ((expander H).fill buffer s).2.Valid
  := by
  induction buffer generalizing s with
  | nil => exact ⟨rfl, hs⟩
  | cons old rest ih =>
    have hcons := Expander.fill_cons (expander H) old rest s
    have hstep : (expander H).next? s = s.next? := rfl
    rw [fillChecked, hs.nextChecked_eq, Option.bind_some, hcons, hstep]
    cases hnext : s.next? with
    | none => exact ⟨rfl, hs⟩
    | some step =>
      obtain ⟨hfill, hvalid⟩ := ih (hs.next? hnext)
      constructor
      · simp only [hfill]
        rfl
      · exact hvalid

/-- The twin makes the same of all buffers, and does not stop. -/
theorem Valid.fillEachChecked_eq {s : Stream H} (hs : s.Valid) (buffers : List Bytes) :
  s.fillEachChecked buffers = some ((expander H).fillEach buffers s)
  := by
  induction buffers generalizing s with
  | nil => rfl
  | cons buffer rest ih =>
    obtain ⟨hfill, hvalid⟩ := hs.fillChecked_eq buffer
    rw [fillEachChecked, hfill]
    change (fillEachChecked rest ((expander H).fill buffer s).2).map _ = _
    rw [ih hvalid]
    rfl

end Xmd.Stream

/-! ### Accepted requests -/

/-- A buffer whose request fails keeps its content. -/
theorem Buffer.replaceBy_error {ε σ : Type} {f : σ → Except ε σ} {content rest : σ} {reason : ε}
    (h : Buffer.replaceBy f content = .error reason rest) :
  rest = content
  := by
  rw [replaceBy] at h
  split at h
  · cases h
  · cases h
    rfl

/-- A request to a hash function with fixed output is rejected by its bounds alone, and an accepted
one gets a stream of `1, ..., 255` blocks with the exact length of its tag, on which no position
leaves its block and no number of a block exceeds a byte.  The same holds of the bounds of an
extendable hash function, whose stream has neither.  A rejected expansion leaves its buffer. -/
theorem acceptance_exact :
  (∀ (H : FixedHash) (level : Nat) (message tag : List Bytes) (length : Nat),
    (∀ reason, Xmd.start H level message tag length = .error reason
      ↔ Xmd.rejection? H.outputSize level (totalLength tag) length = some reason)
    ∧ (Xmd.rejection? H.outputSize level (totalLength tag) length = none →
      ∃ s, Xmd.start H level message tag length = .ok s
        ∧ 1 ≤ s.count.toNat ∧ s.count.toNat = length ⌈/⌉ H.outputSize
        ∧ s.tag.lengthByte.toNat = s.tag.bytes.length
        ∧ ∀ buffers, s.fillEachChecked buffers = some ((Xmd.expander H).fillEach buffers s)))
  ∧ (∀ (X : ExtendableHash) (level : Nat) (message tag : List Bytes) (length : Nat),
    (∀ reason, Xof.start X level message tag length = .error reason
      ↔ Xof.rejection? level (totalLength tag) length = some reason)
    ∧ (Xof.rejection? level (totalLength tag) length = none →
      ∃ (word : UInt16) (t : Tag),
        Xof.start X level message tag length = .ok (X.reader (Xof.readerInput message word t))
          ∧ word.toNat = length ∧ t.lengthByte.toNat = t.bytes.length))
  ∧ (∀ (H : FixedHash) (tag message buffer rest : Bytes) (reason : Suite.Rejection),
    Suite.overwriteXmd H tag message buffer = .error reason rest → rest = buffer)
  ∧ ∀ (X : ExtendableHash) (tag message buffer rest : Bytes) (reason : Suite.Rejection),
    Suite.overwriteXof X tag message buffer = .error reason rest → rest = buffer
  := by
  refine ⟨?_, ?_, ?_, ?_⟩
  · intro H level message tag length
    have hcases := Xmd.start_cases H level message tag length
    cases hrejection : Xmd.rejection? H.outputSize level (totalLength tag) length with
    | some reason =>
      rw [hrejection] at hcases
      dsimp only at hcases
      simp [hcases]
    | none =>
      rw [hrejection] at hcases
      obtain ⟨t, hstart, hmax⟩ := hcases
      rw [hstart]
      constructor
      · simp
      · intro _
        obtain ⟨-, hcount, -⟩ := Xmd.start_eq_run hstart
        have htoNat : (UInt8.ofNat (length ⌈/⌉ H.outputSize)).toNat = length ⌈/⌉ H.outputSize :=
          UInt8.toNat_ofNat_of_lt' (Nat.lt_succ_of_le hmax)
        refine ⟨_, rfl, hcount.trans_eq htoNat.symm, htoNat, t.toNat_lengthByte, ?_⟩
        intro buffers
        apply Xmd.Stream.Valid.fillEachChecked_eq (Nat.zero_le _)
  · intro X level message tag length
    have hcases := Xof.start_cases X level message tag length
    cases hrejection : Xof.rejection? level (totalLength tag) length with
    | some reason =>
      rw [hrejection] at hcases
      dsimp only at hcases
      simp [hcases]
    | none =>
      rw [hrejection] at hcases
      obtain ⟨t, hstart, -, hlength⟩ := hcases
      rw [hstart]
      constructor
      · simp
      · intro _
        exact ⟨_, t, rfl, UInt16.toNat_ofNat_of_lt' (Nat.lt_succ_of_le hlength), t.toNat_lengthByte⟩
  · intro H tag message buffer rest reason h
    delta Suite.overwriteXmd Suite.overwrite at h
    apply Buffer.replaceBy_error h
  · intro X tag message buffer rest reason h
    delta Suite.overwriteXof Suite.overwrite at h
    apply Buffer.replaceBy_error h

/-- With SHA-512, at the security level of the suites. -/
theorem acceptance_exact_sha512 :
  Xmd.rejection? sha512.outputSize Suite.level (totalLength [[1]]) 96 = none
    ∧ ∃ s, Xmd.start sha512 Suite.level [[2]] [[1]] 96 = .ok s
      ∧ ∀ buffers, s.fillEachChecked buffers = some ((Xmd.expander sha512).fillEach buffers s)
  := by
  have haccepted : Xmd.rejection? sha512.outputSize Suite.level (totalLength [[1]]) 96 = none := by
    decide
  obtain ⟨s, hs, -, -, -, hchecked⟩ :=
    (acceptance_exact.1 sha512 Suite.level [[2]] [[1]] 96).2 haccepted
  exact ⟨haccepted, s, hs, hchecked⟩

end HashToCurve
