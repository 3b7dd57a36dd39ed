import HashToCurve.Hash.Keccak
import HashToCurve.Proofs.Bytes.Digits
import HashToCurve.Proofs.Expand.Acceptance
import HashToCurve.Proofs.Expand.Xof

/-!
# What a request absorbs

A request absorbs one byte string, in which nothing marks the end of the message.  The string is
read from its end: the last byte is the length of the tag before it, and in front of the tag the
number of bytes wanted has two bytes.  So requests that absorb the same string have the same message,
want the same number of bytes and have the same tag, if a long tag is taken as what it is shortened
to.
-/

namespace HashToCurve

open Bytes

/-- What an expander is asked for. -/
structure Request where
  /-- The security level in bytes. -/
  level : Nat
  /-- The slices of the message. -/
  message : List Bytes
  /-- The slices of the tag. -/
  tag : List Bytes
  /-- The number of bytes that will be wanted. -/
  length : Nat

/-! ### Layout -/

/-- A message, a number of bytes in two bytes, and a tag followed by its length, after fixed bytes at
the start and in the middle. -/
def layout (lead separator message : Bytes) (length : Nat) (tag : Bytes) : Bytes :=
  lead ++ message ++ ofNatBE 2 length ++ separator ++ tag ++ ofNatBE 1 tag.length

/-- The fields are cut off from the end, each with a length that is known by then. -/
theorem layout_inj {lead separator message message' tag tag' : Bytes} {length length' : Nat}
    (hlength : length ≤ 65535) (hlength' : length' ≤ 65535) (htag : tag.length ≤ 255)
    (htag' : tag'.length ≤ 255) :
  layout lead separator message length tag = layout lead separator message' length' tag'
    ↔ message = message' ∧ length = length' ∧ tag = tag'
  := by
  constructor
  · intro h
    obtain ⟨hrest, hlast⟩ := List.append_inj' h rfl
    have hsize : tag.length = tag'.length :=
      (ofNatBE_inj (Nat.lt_succ_of_le htag) (Nat.lt_succ_of_le htag')).mp hlast
    obtain ⟨hfront, htags⟩ := List.append_inj' hrest hsize
    obtain ⟨hnumbered, hwanted⟩ := List.append_inj' (List.append_cancel_right hfront) rfl
    have hnumber : length = length' :=
      (ofNatBE_inj (Nat.lt_succ_of_le hlength) (Nat.lt_succ_of_le hlength')).mp hwanted
    exact ⟨List.append_cancel_left hnumbered, hnumber, htags⟩
  · rintro ⟨rfl, rfl, rfl⟩
    rfl

/-- How the strings that are absorbed are laid out, between fixed bytes, and what they tell about the
requests that are accepted. -/
structure Framing {ε : Type} (absorbed : Request → Except ε Bytes) (lead separator : Bytes)
    (effectiveTag : Request → Bytes) : Prop where
  input_eq : ∀ r input, absorbed r = .ok input →
    input = lead ++ r.message.flatten ++ ofNatBE 2 r.length ++ separator
      ++ effectiveTag r ++ [UInt8.ofNat (effectiveTag r).length]
  toNat_lengthByte : ∀ r input, absorbed r = .ok input →
    (UInt8.ofNat (effectiveTag r).length).toNat = (effectiveTag r).length
  input_inj : ∀ r r' input input', absorbed r = .ok input → absorbed r' = .ok input' →
    (input = input' ↔ r.message.flatten = r'.message.flatten ∧ r.length = r'.length
      ∧ effectiveTag r = effectiveTag r')
  input_inj_of_short : ∀ r r' input input', absorbed r = .ok input → absorbed r' = .ok input' →
    r.tag.flatten.length ≤ 255 → r'.tag.flatten.length ≤ 255 →
    (input = input' ↔ r.message.flatten = r'.message.flatten ∧ r.length = r'.length
      ∧ r.tag.flatten = r'.tag.flatten)

/-- Strings that end with a tag and its length tell the requests apart whose tags are short. -/
theorem framing_of_layout {ε : Type} {absorbed : Request → Except ε Bytes} {lead separator : Bytes}
    {effectiveTag : Request → Bytes}
    (hshort : ∀ r, r.tag.flatten.length ≤ 255 → effectiveTag r = r.tag.flatten)
    (habsorbed : ∀ r input, absorbed r = .ok input → r.length ≤ 65535
      ∧ (effectiveTag r).length ≤ 255
      ∧ input = layout lead separator r.message.flatten r.length (effectiveTag r)) :
  Framing absorbed lead separator effectiveTag
  := by
  have hinj : ∀ r r' input input', absorbed r = .ok input → absorbed r' = .ok input' →
      (input = input' ↔ r.message.flatten = r'.message.flatten ∧ r.length = r'.length
        ∧ effectiveTag r = effectiveTag r') := by
    intro r r' input input' h h'
    obtain ⟨hlength, htag, rfl⟩ := habsorbed r input h
    obtain ⟨hlength', htag', rfl⟩ := habsorbed r' input' h'
    apply layout_inj hlength hlength' htag htag'
  refine ⟨?_, ?_, hinj, ?_⟩
  · intro r input h
    obtain ⟨-, -, rfl⟩ := habsorbed r input h
    rfl
  · intro r input h
    obtain ⟨-, htag, -⟩ := habsorbed r input h
    apply UInt8.toNat_ofNat_of_lt' (Nat.lt_succ_of_le htag)
  · intro r r' input input' h h' htag htag'
    rw [hinj r r' input input' h h', hshort r htag, hshort r' htag']

/-! ### Tags -/

namespace Tag

/-- What stands for a tag: the tag itself, or what a long one is shortened to. -/
def effective (shorten : Bytes → Bytes) (tag : Bytes) : Bytes :=
  if tag.length ≤ 255 then tag else shorten (ofAscii "H2C-OVERSIZE-DST-" ++ tag)

/-- A tag of up to 255 bytes is used as it is. -/
theorem effective_of_le {shorten : Bytes → Bytes} {tag : Bytes} (h : tag.length ≤ 255) :
  effective shorten tag = tag
  := if_pos h

/-- The bytes of a framed tag are what is in front of its length. -/
theorem bytes_of_framed {t : Tag} {shorten : Bytes → Bytes} {tag : Bytes}
    (h : t.framed = frame shorten tag) :
  t.bytes = effective shorten tag
  := List.append_inj_left' h rfl

end Tag

/-! ### Requests -/

namespace Xmd

variable (H : FixedHash)

/-- What stands for a tag; a long one is replaced by its hash. -/
def effectiveTag (tag : Bytes) : Bytes := Tag.effective (fun b => (H.digest b).toList) tag

/-- What is absorbed for the seed, unless the request is rejected. -/
def absorbed (r : Request) : Except Rejection Bytes :=
  (start H r.level r.message r.tag r.length).map fun s =>
    seedInput H r.message (UInt16.ofNat r.length) s.tag

variable {H} {r : Request} {input : Bytes}

/-- The seed is the hash of what is absorbed. -/
theorem map_seed_start (r : Request) :
  (start H r.level r.message r.tag r.length).map Stream.seed = (absorbed H r).map H.digest
  := by
  rw [absorbed]
  cases h : start H r.level r.message r.tag r.length with
  | error reason => rfl
  | ok s =>
    obtain ⟨-, -, -, t, -, rfl⟩ := start_eq_ok h
    rfl

theorem absorbed_eq_ok (h : absorbed H r = .ok input) :
  r.length ≤ 65535 ∧ (effectiveTag H r.tag.flatten).length ≤ 255
    ∧ input = layout (zeros H.blockSize) [0] r.message.flatten r.length (effectiveTag H r.tag.flatten)
  := by
  rw [absorbed] at h
  obtain ⟨s, hs, rfl⟩ := exists_of_map_eq_ok h
  obtain ⟨-, hlength, -, t, ht, rfl⟩ := start_eq_ok hs
  have hbytes : t.bytes = effectiveTag H r.tag.flatten := Tag.bytes_of_framed ht
  have hword : (UInt16.ofNat r.length).toNat = r.length :=
    UInt16.toNat_ofNat_of_lt' (Nat.lt_succ_of_le hlength)
  rw [← hbytes]
  refine ⟨hlength, t.length_le, ?_⟩
  change seedInput H r.message (UInt16.ofNat r.length) t = _
  rw [seedInput, hword, Tag.framed, ← List.append_assoc]
  rfl

/-- A request within its bounds absorbs a string. -/
theorem exists_absorbed
    (h : rejection? H.outputSize r.level (totalLength r.tag) r.length = none) :
  ∃ input, absorbed H r = .ok input
  := by
  have hcases := start_cases H r.level r.message r.tag r.length
  rw [h] at hcases
  obtain ⟨t, ht, -⟩ := hcases
  rw [absorbed, ht]
  exact ⟨_, rfl⟩

end Xmd

namespace Xof

variable (X : ExtendableHash)

/-- What stands for a tag; a long one is replaced by `2 * level` bytes of output. -/
def effectiveTag (level : Nat) (tag : Bytes) : Bytes :=
  Tag.effective (fun b => (X.squeeze (2 * level) b).toList) tag

/-- What is absorbed for the stream, unless the request is rejected. -/
def absorbed (r : Request) : Except Rejection Bytes :=
  match Expander.lengthWord? r.length with
  | none => .error .length
  | some word => (Xof.tag X r.level r.tag).map (readerInput r.message word)

variable {X} {r : Request} {input : Bytes}

/-- The stream is the output for what is absorbed. -/
theorem start_eq_absorbed (r : Request) :
  start X r.level r.message r.tag r.length = (absorbed X r).map X.reader
  := by
  rw [start, absorbed]
  cases Expander.lengthWord? r.length with
  | none => rfl
  | some word => cases Xof.tag X r.level r.tag <;> rfl

theorem absorbed_eq_ok (h : absorbed X r = .ok input) :
  r.length ≤ 65535 ∧ (effectiveTag X r.level r.tag.flatten).length ≤ 255
    ∧ input = layout [] [] r.message.flatten r.length (effectiveTag X r.level r.tag.flatten)
  := by
  rw [absorbed] at h
  split at h
  · cases h
  rename_i word hword
  obtain ⟨-, hlength, htoNat⟩ := Expander.toNat_lengthWord hword
  obtain ⟨t, ht, rfl⟩ := exists_of_map_eq_ok h
  have hbytes : t.bytes = effectiveTag X r.level r.tag.flatten :=
    Tag.bytes_of_framed (Tag.framed_of_ofSlices ht)
  rw [← hbytes]
  refine ⟨hlength, t.length_le, ?_⟩
  rw [readerInput, htoNat, Tag.framed, layout, List.nil_append, List.append_nil,
    ← List.append_assoc]
  rfl

/-- A request within its bounds absorbs a string. -/
theorem exists_absorbed (h : rejection? r.level (totalLength r.tag) r.length = none) :
  ∃ input, absorbed X r = .ok input
  := by
  have hcases := start_cases X r.level r.message r.tag r.length
  rw [h] at hcases
  obtain ⟨t, ht, -⟩ := hcases
  rw [start_eq_absorbed] at ht
  obtain ⟨input, hinput, -⟩ := exists_of_map_eq_ok ht
  exact ⟨input, hinput⟩

end Xof

/-! ### Separation -/

/-- The seed is the hash of the string that a request absorbs, and the stream of an extendable hash
function is the output for it; every request within its bounds absorbs one.  Either string is framed:
two requests that are accepted absorb the same string exactly if they have the same message, want the
same number of bytes and have the same tag, up to the shortening of long tags. -/
theorem framing_separates :
  (∀ H : FixedHash,
    (∀ r : Request,
      (Xmd.start H r.level r.message r.tag r.length).map Xmd.Stream.seed
          = (Xmd.absorbed H r).map H.digest
        ∧ (Xmd.rejection? H.outputSize r.level (totalLength r.tag) r.length = none →
          ∃ input, Xmd.absorbed H r = .ok input))
    ∧ Framing (Xmd.absorbed H) (zeros H.blockSize) [0] fun r => Xmd.effectiveTag H r.tag.flatten)
  ∧ ∀ X : ExtendableHash,
    (∀ r : Request,
      Xof.start X r.level r.message r.tag r.length = (Xof.absorbed X r).map X.reader
        ∧ (Xof.rejection? r.level (totalLength r.tag) r.length = none →
          ∃ input, Xof.absorbed X r = .ok input))
    ∧ Framing (Xof.absorbed X) [] [] fun r => Xof.effectiveTag X r.level r.tag.flatten
  := by
  constructor
  · intro H
    constructor
    · intro r
      exact ⟨Xmd.map_seed_start r, Xmd.exists_absorbed⟩
    · apply framing_of_layout _ fun _ _ => Xmd.absorbed_eq_ok
      intro r hr
      apply Tag.effective_of_le hr
  · intro X
    constructor
    · intro r
      exact ⟨Xof.start_eq_absorbed r, Xof.exists_absorbed⟩
    · apply framing_of_layout _ fun _ _ => Xof.absorbed_eq_ok
      intro r hr
      apply Tag.effective_of_le hr

/-- A byte that moves from the end of the message to the start of the tag shows, although message and
tag together stay as they are. -/
theorem framing_separates_moved_byte :
  (∃ input input', Xmd.absorbed sha512 ⟨16, [[1], [2]], [[3]], 96⟩ = .ok input
    ∧ Xmd.absorbed sha512 ⟨16, [[1]], [[2], [3]], 96⟩ = .ok input' ∧ input ≠ input')
  ∧ ∃ input input', Xof.absorbed shake128 ⟨16, [[1], [2]], [[3]], 96⟩ = .ok input
    ∧ Xof.absorbed shake128 ⟨16, [[1]], [[2], [3]], 96⟩ = .ok input' ∧ input ≠ input'
  := by
  constructor
  · obtain ⟨haccepted, hframing⟩ := framing_separates.1 sha512
    obtain ⟨input, hinput⟩ := (haccepted ⟨16, [[1], [2]], [[3]], 96⟩).2 (by decide)
    obtain ⟨input', hinput'⟩ := (haccepted ⟨16, [[1]], [[2], [3]], 96⟩).2 (by decide)
    refine ⟨input, input', hinput, hinput', ?_⟩
    rw [ne_eq, hframing.input_inj_of_short _ _ _ _ hinput hinput' (by decide) (by decide)]
    decide
  · obtain ⟨haccepted, hframing⟩ := framing_separates.2 shake128
    obtain ⟨input, hinput⟩ := (haccepted ⟨16, [[1], [2]], [[3]], 96⟩).2 (by decide)
    obtain ⟨input', hinput'⟩ := (haccepted ⟨16, [[1]], [[2], [3]], 96⟩).2 (by decide)
    refine ⟨input, input', hinput, hinput', ?_⟩
    rw [ne_eq, hframing.input_inj_of_short _ _ _ _ hinput hinput' (by decide) (by decide)]
    decide

end HashToCurve
