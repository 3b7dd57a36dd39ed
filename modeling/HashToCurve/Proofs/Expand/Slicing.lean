import HashToCurve.Group.Ristretto255
import HashToCurve.Proofs.Expand.Framing
import HashToCurve.Proofs.Group.Basic

/-!
# Slices and security levels

A request is answered by the bytes of its message and of its tag, however they are sliced, and the
buffers receive the bytes of the stream however the reads are sliced.  The security level decides
which requests are accepted, and it shows in the stream only where it sets the size to which an
extendable hash function shortens a long tag.

What is read from a stream is a function of the outcome of the request, so that a relation of the
outcomes of two requests is carried over to all that is computed from them.
-/

namespace HashToCurve

open Bytes HashToField

/-! ### Relations of outcomes -/

/-- Two outcomes do not differ where both are results. -/
def AgreeOnResults {ε α : Type} (x y : Except ε α) : Prop := ∀ a b, x = .ok a → y = .ok b → a = b

/-- A relation of outcomes that computing on preserves. -/
structure Compositional (R : ∀ {ε α : Type}, Except ε α → Except ε α → Prop) : Prop where
  map : ∀ {ε α β : Type} {x y : Except ε α} (f : α → β), R x y → R (x.map f) (y.map f)
  bind : ∀ {ε α β : Type} {x y : Except ε α} (f : α → Except ε β), R x y → R (x >>= f) (y >>= f)
  mapError : ∀ {ε δ α : Type} {x y : Except ε α} (f : ε → δ),
    R x y → R (x.mapError f) (y.mapError f)

/-- Computing on preserves equality of outcomes. -/
theorem compositional_eq :
  Compositional (· = ·)
  where
  map f h := by rw [h]
  bind f h := by rw [h]
  mapError f h := by rw [h]

theorem compositional_agreeOnResults :
  Compositional AgreeOnResults
  where
  map {ε α β x y} f h a b ha hb := by
    cases x <;> cases y <;> cases ha <;> cases hb
    rw [h _ _ rfl rfl]
  bind {ε α β x y} f h a b ha hb := by
    cases x with
    | error e => cases ha
    | ok s =>
      cases y with
      | error e => cases hb
      | ok t =>
        rw [h s t rfl rfl] at ha
        exact Except.ok.inj (ha.symm.trans hb)
  mapError {ε δ α x y} f h a b ha hb := by
    cases x <;> cases y <;> cases ha <;> cases hb
    apply h _ _ rfl rfl

/-! ### What is computed from a request -/

/-- Two requests for as many bytes, with the same message and the same tag in slices of their own. -/
structure Request.SameBytes (r r' : Request) : Prop where
  message : r.message.flatten = r'.message.flatten
  tag : r.tag.flatten = r'.tag.flatten
  length : r.length = r'.length

/-- A group at another security level. -/
def HashGroup.atLevel (G : HashGroup) (level : Nat) : HashGroup := { G with level }

namespace Expander

variable (E : Expander)

/-- The contents of buffers that are overwritten one after the other, unless the request is
rejected. -/
def output (r : Request) (buffers : List Bytes) : Except E.Rejection Bytes :=
  (E.start r.level r.message r.tag r.length).map fun s => (E.fillEach buffers s).flatMap Prod.fst

/-- What is computed from two requests is related: the bytes in buffers with the same content, in
slices of their own, field elements of any type and number, and points of any group. -/
structure Related (R : ∀ {ε α : Type}, Except ε α → Except ε α → Prop) (r r' : Request) : Prop where
  output : ∀ buffers buffers' : List Bytes, buffers.flatten = buffers'.flatten →
    R (E.output r buffers) (E.output r' buffers')
  elements : ∀ (T : Type) [FromUniformBytes T] (count : Nat),
    R (hashToField E T r.level r.message r.tag count)
      (hashToField E T r'.level r'.message r'.tag count)
  hash : ∀ G : HashGroup,
    R ((G.atLevel r.level).hash E r.message r.tag) ((G.atLevel r'.level).hash E r'.message r'.tag)
  encode : ∀ G : HashGroup,
    R ((G.atLevel r.level).encode E r.message r.tag)
      ((G.atLevel r'.level).encode E r'.message r'.tag)

variable {E}

/-- Buffers with the same content receive the same bytes. -/
theorem flatMap_fillEach_congr {buffers buffers' : List Bytes}
    (h : buffers.flatten = buffers'.flatten) (s : E.Stream) :
  (E.fillEach buffers s).flatMap Prod.fst = (E.fillEach buffers' s).flatMap Prod.fst
  := by
  have hfill := fill_flatten buffers s
  rw [h, fill_flatten] at hfill
  apply (congrArg Prod.fst hfill).symm

/-- It is enough to relate the outcomes of the requests. -/
theorem Related.of_start {R : ∀ {ε α : Type}, Except ε α → Except ε α → Prop}
    (hR : Compositional R) {r r' : Request} (hlength : r.length = r'.length)
    (h : ∀ length, R (E.start r.level r.message r.tag length)
      (E.start r'.level r'.message r'.tag length)) :
  E.Related R r r'
  := by
  have helements (T : Type) [FromUniformBytes T] (count : Nat) :
      R (hashToField E T r.level r.message r.tag count)
        (hashToField E T r'.level r'.message r'.tag count) :=
    hR.map _ (h _)
  refine ⟨?_, helements, ?_, ?_⟩
  · intro buffers buffers' hbuffers
    rw [Expander.output, Expander.output, hlength,
      funext (flatMap_fillEach_congr (E := E) hbuffers)]
    apply hR.map _ (h _)
  · intro G
    exact hR.bind _ (hR.mapError Failure.rejected (helements G.Element 2))
  · intro G
    exact hR.bind _ (hR.mapError Failure.rejected (helements G.Element 1))

/-- Requests with the same elements overwrite buffers of elements in the same way. -/
theorem Related.overwriteElements_eq {r r' : Request} (h : E.Related (· = ·) r r') (T : Type)
    [FromUniformBytes T] :
  overwriteElements E T r.level r.message r.tag = overwriteElements E T r'.level r'.message r'.tag
  := by
  rw [overwriteElements, overwriteElements]
  congr 1
  funext buffer
  rw [h.elements]

end Expander

/-! ### Requests with the same bytes -/

namespace Tag

variable {ε : Type} {size size' : Nat} (isEmpty cannotShorten : ε)

/-- A tag depends on the bytes of its slices alone. -/
theorem ofSlices_flatten (shorten : Bytes → Vector UInt8 size) (slices : List Bytes) :
  ofSlices shorten isEmpty cannotShorten slices
    = ofSlices shorten isEmpty cannotShorten [slices.flatten]
  := by
  simp only [ofSlices, ← length_flatten, List.flatten_singleton]

/-- A tag that is short enough is not shortened. -/
theorem ofSlices_of_le (shorten : Bytes → Vector UInt8 size) (shorten' : Bytes → Vector UInt8 size')
    {slices : List Bytes} (h : slices.flatten.length ≤ 255) :
  ofSlices shorten isEmpty cannotShorten slices = ofSlices shorten' isEmpty cannotShorten slices
  := by
  rw [length_flatten] at h
  simp only [ofSlices, h, dite_true]

end Tag

namespace Xmd

variable {H : FixedHash}

theorem start_flatten (level : Nat) (message tag : List Bytes) (length : Nat) :
  start H level message tag length = start H level [message.flatten] [tag.flatten] length
  := by
  simp only [start_eq, Stream.start, seedInput, List.flatten_singleton, Xmd.tag,
    Tag.ofSlices_flatten _ _ _ tag]

/-- The level is only compared with the size of the output. -/
theorem start_agreeOnResults (level level' : Nat) (message tag : List Bytes) (length : Nat) :
  AgreeOnResults (start H level message tag length) (start H level' message tag length)
  := by
  intro s s' hs hs'
  rw [start_eq] at hs hs'
  split at hs
  · cases hs
  split at hs'
  · cases hs'
  exact Except.ok.inj (hs.symm.trans hs')

end Xmd

namespace Xof

variable {X : ExtendableHash}

theorem start_flatten (level : Nat) (message tag : List Bytes) (length : Nat) :
  start X level message tag length = start X level [message.flatten] [tag.flatten] length
  := by
  simp only [start, readerInput, List.flatten_singleton, Xof.tag, Tag.ofSlices_flatten _ _ _ tag]

/-- The level is only the size to which a long tag is shortened. -/
theorem start_of_le (level level' : Nat) (message : List Bytes) {tag : List Bytes} (length : Nat)
    (h : tag.flatten.length ≤ 255) :
  start X level message tag length = start X level' message tag length
  := by
  simp only [start, Xof.tag, Tag.ofSlices_of_le _ _ _ (X.squeeze (2 * level')) h]

end Xof

/-- Requests with the same bytes get the same answer, with the same hash function and at the same
level, from all that is computed from them.  At other levels that are accepted too, a hash function
with fixed output computes the same, and so does an extendable one for a tag of at most 255 bytes,
which is accepted at all levels or at none. -/
theorem answer_of_sameBytes (r r' : Request) (h : r.SameBytes r') :
  (∀ H : FixedHash,
    (r.level = r'.level → (Xmd.expander H).Related (· = ·) r r'
      ∧ ∀ (T : Type) [FromUniformBytes T], overwriteElements (Xmd.expander H) T r.level r.message r.tag
        = overwriteElements (Xmd.expander H) T r'.level r'.message r'.tag)
    ∧ (Xmd.expander H).Related AgreeOnResults r r'
    ∧ Ristretto255.hash (Xmd.expander H) r.message r.tag
      = Ristretto255.hash (Xmd.expander H) r'.message r'.tag)
  ∧ ∀ X : ExtendableHash,
    (r.level = r'.level ∨ r.tag.flatten.length ≤ 255 → (Xof.expander X).Related (· = ·) r r'
      ∧ ∀ (T : Type) [FromUniformBytes T], overwriteElements (Xof.expander X) T r.level r.message r.tag
        = overwriteElements (Xof.expander X) T r'.level r'.message r'.tag)
    ∧ Ristretto255.hash (Xof.expander X) r.message r.tag
      = Ristretto255.hash (Xof.expander X) r'.message r'.tag
  := by
  obtain ⟨hmessage, htag, hlength⟩ := h
  constructor
  · intro H
    have hstart (level length : Nat) : Xmd.start H level r.message r.tag length
        = Xmd.start H level r'.message r'.tag length := by
      rw [Xmd.start_flatten, hmessage, htag, ← Xmd.start_flatten]
    refine ⟨?_, ?_, ?_⟩
    · intro hlevel
      have hrelated : (Xmd.expander H).Related (· = ·) r r' := by
        apply Expander.Related.of_start compositional_eq hlength
        intro length
        rw [hlevel]
        apply hstart
      exact ⟨hrelated, fun T _ => hrelated.overwriteElements_eq T⟩
    · apply Expander.Related.of_start compositional_agreeOnResults hlength
      intro length
      change AgreeOnResults (Xmd.start H r.level r.message r.tag length) _
      rw [hstart]
      apply Xmd.start_agreeOnResults
    · exact congrArg _ (hstart 16 64)
  · intro X
    have hstart (level length : Nat) : Xof.start X level r.message r.tag length
        = Xof.start X level r'.message r'.tag length := by
      rw [Xof.start_flatten, hmessage, htag, ← Xof.start_flatten]
    constructor
    · intro hlevel
      have hrelated : (Xof.expander X).Related (· = ·) r r' := by
        apply Expander.Related.of_start compositional_eq hlength
        intro length
        change Xof.start X r.level r.message r.tag length
          = Xof.start X r'.level r'.message r'.tag length
        rcases hlevel with hlevel | hshort
        · rw [hlevel, hstart]
        · rw [Xof.start_of_le r.level r'.level r.message length hshort, hstart]
      exact ⟨hrelated, fun T _ => hrelated.overwriteElements_eq T⟩
    · exact congrArg _ (hstart 16 64)

/-- A message of three bytes and a tag of one, in two slices and in three, at two levels. -/
theorem answer_of_sameBytes_resliced :
  (∃ bytes,
    (Xmd.expander sha512).output ⟨16, [[1, 2], [3]], [[4], []], 96⟩ [zeros 70, zeros 26] = .ok bytes
    ∧ (Xmd.expander sha512).output ⟨16, [[1], [], [2, 3]], [[], [4]], 96⟩ [zeros 96] = .ok bytes
    ∧ (Xmd.expander sha512).output ⟨32, [[1], [], [2, 3]], [[], [4]], 96⟩ [zeros 96] = .ok bytes)
  ∧ ∃ bytes,
    (Xof.expander shake128).output ⟨16, [[1, 2], [3]], [[4], []], 96⟩ [zeros 70, zeros 26] = .ok bytes
    ∧ (Xof.expander shake128).output ⟨32, [[1], [], [2, 3]], [[], [4]], 96⟩ [zeros 96] = .ok bytes
  := by
  have hsame := answer_of_sameBytes ⟨16, [[1, 2], [3]], [[4], []], 96⟩
    ⟨16, [[1], [], [2, 3]], [[], [4]], 96⟩ ⟨rfl, rfl, rfl⟩
  have hlevel := answer_of_sameBytes ⟨16, [[1, 2], [3]], [[4], []], 96⟩
    ⟨32, [[1], [], [2, 3]], [[], [4]], 96⟩ ⟨rfl, rfl, rfl⟩
  have hbuffers : [zeros 70, zeros 26].flatten = [zeros 96].flatten := by decide
  constructor
  · refine ⟨_, rfl, ?_, ?_⟩
    · exact (((hsame.1 sha512).1 rfl).1.output _ _ hbuffers).symm
    · have hagree := (hlevel.1 sha512).2.1.output _ _ hbuffers _ _ rfl rfl
      rw [hagree]
      rfl
  · refine ⟨_, rfl, ?_⟩
    exact (((hlevel.2 shake128).1 (.inr (by decide))).1.output _ _ hbuffers).symm

end HashToCurve
