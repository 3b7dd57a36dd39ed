import HashToCurve.Hash.Sha2
import HashToCurve.Proofs.Expand.OneShot
import HashToCurve.Proofs.Expand.Stream

/-!
# The stream of blocks

The stream of a hash function with fixed output yields the bytes of the blocks in order, and is dry
after the last block.  Its state after a number of bytes is the block that holds the last of them,
with an offset behind that byte: a block is computed when its first byte is wanted.
-/

namespace HashToCurve

open Bytes

/-! ### Tags -/

/-- The tag of slices is framed as their concatenation is. -/
theorem Tag.framed_of_ofSlices {ε : Type} {size : Nat} {shorten : Bytes → Vector UInt8 size}
    {isEmpty cannotShorten : ε} {slices : List Bytes} {t : Tag}
    (h : ofSlices shorten isEmpty cannotShorten slices = .ok t) :
  t.framed = frame (fun b => (shorten b).toList) slices.flatten
  := by
  rw [ofSlices] at h
  rw [framed, frame, length_flatten]
  split at h
  · cases h
  · split at h
    · rename_i hshort
      cases h
      rw [if_pos hshort]
      rfl
    · rename_i hlong
      split at h
      · cases h
        rw [if_neg hlong]
        rfl
      · cases h

namespace Xmd

/-! ### Requests -/

variable {H : FixedHash}

/-- The bounds on the number of bytes wanted, which are tested in two places, and the stream. -/
theorem start_eq (level : Nat) (message tag : List Bytes) (length : Nat) :
  start H level message tag length
    = if H.outputSize < 2 * level then .error .hashSize
      else if length = 0 ∨ 65535 < length ∨ 255 < length ⌈/⌉ H.outputSize then .error .length
      else (Xmd.tag H tag).map fun t =>
        Stream.start H message (UInt16.ofNat length) t (UInt8.ofNat (length ⌈/⌉ H.outputSize))
  := by
  rw [start, Expander.lengthWord?, Nat.ceilDiv_eq_add_pred_div]
  split
  · rfl
  · by_cases hrange : length = 0 ∨ 65535 < length
    · rw [if_pos hrange, if_pos (by tauto)]
    · rw [if_neg hrange]
      simp only [not_or] at hrange
      simp only [hrange.1, hrange.2, false_or, blockCount]
      rfl

/-- The stream of a request that is not rejected. -/
theorem start_eq_ok {level : Nat} {message tag : List Bytes} {length : Nat} {s : Stream H}
    (h : start H level message tag length = .ok s) :
  1 ≤ length ∧ length ≤ 65535 ∧ length ⌈/⌉ H.outputSize ≤ 255
    ∧ ∃ t : Tag, t.framed = Tag.frame (fun b => (H.digest b).toList) tag.flatten
      ∧ s = Stream.start H message (UInt16.ofNat length) t (UInt8.ofNat (length ⌈/⌉ H.outputSize))
  := by
  rw [start_eq] at h
  split at h
  · cases h
  split at h
  · cases h
  rename_i hrange
  refine ⟨by omega, by omega, by omega, ?_⟩
  obtain ⟨t, ht, rfl⟩ := exists_of_map_eq_ok h
  exact ⟨t, Tag.framed_of_ofSlices ht, rfl⟩

/-! ### Blocks -/

section Blocks

variable (H) (message : Bytes) (length : Nat) (framed : Bytes)

/-- The next block is the digest of the seed added to the block before it, the number of the block
and the tag. -/
theorem block_succ {i : Nat} (hi : 1 ≤ i) :
  block H message length framed (i + 1)
    = H.digest (((seed H message length framed).zipWith (· ^^^ ·)
        (block H message length framed i)).toList ++ ofNatBE 1 (i + 1) ++ framed)
  := by
  obtain ⟨i, rfl⟩ := Nat.exists_eq_add_of_le' hi
  rfl

/-- One more block follows the blocks before it. -/
theorem blocks_succ (count : Nat) :
  blocks H message length framed (count + 1)
    = blocks H message length framed count ++ (block H message length framed (count + 1)).toList
  := by
  rw [blocks, List.range_succ, List.flatMap_append, List.flatMap_singleton, blocks]

/-- All blocks have the size of the digest. -/
theorem length_blocks (count : Nat) :
  (blocks H message length framed count).length = count * H.outputSize
  := by
  induction count with
  | zero => simp [blocks]
  | succ count ih =>
    rw [blocks_succ, List.length_append, ih, Vector.length_toList, Nat.add_mul, Nat.one_mul]

/-- A byte of the blocks is the byte of one of them, at its offset. -/
theorem getElem?_blocks {i offset count : Nat} (hi : i < count) (ho : offset < H.outputSize) :
  (blocks H message length framed count)[i * H.outputSize + offset]?
    = some (block H message length framed (i + 1))[offset]
  := by
  induction count with
  | zero => omega
  | succ count ih =>
    have hlength := length_blocks H message length framed count
    rw [blocks_succ]
    rcases Nat.lt_or_ge i count with hlt | hge
    · have hle : (i + 1) * H.outputSize ≤ count * H.outputSize := Nat.mul_le_mul_right _ hlt
      rw [Nat.add_mul, Nat.one_mul] at hle
      rw [List.getElem?_append_left (by omega), ih hlt]
    · obtain rfl : i = count := by omega
      rw [List.getElem?_append_right (by omega), hlength, Nat.add_sub_cancel_left,
        Vector.getElem?_toList, Vector.getElem?_eq_getElem ho]

end Blocks

/-! ### Steps -/

/-- Within a block, the next byte is read from it. -/
theorem Stream.next?_of_lt {s : Stream H} (h : s.offset < H.outputSize) :
  s.next? = some (s.block[s.offset], { s with offset := s.offset + 1 })
  := dif_pos h

/-- Behind the last byte of a block, the next block is computed. -/
theorem Stream.next?_of_le {s : Stream H} (h : H.outputSize ≤ s.offset) (hindex : s.index < s.count) :
  s.next? = some (s.advance.block.get ⟨0, H.outputSize_pos⟩, { s.advance with offset := 1 })
  := by
  rw [next?, dif_neg (Nat.not_lt.mpr h), if_pos hindex]

/-- At the end of the last block, nothing is left. -/
theorem Stream.next?_dry {s : Stream H} (h : H.outputSize ≤ s.offset) (hindex : ¬ s.index < s.count) :
  s.next? = none
  := by
  rw [next?, dif_neg (Nat.not_lt.mpr h), if_neg hindex]

/-! ### States -/

section States

variable (H) (message : Bytes) (length : Nat) (tag : Tag) (count : Nat)

/-- The state in block `i` with a given offset. -/
def stateIn (i offset : Nat) : Stream H where
  seed := seed H message length tag.framed
  block := block H message length tag.framed i
  tag := tag
  index := UInt8.ofNat i
  offset := offset
  count := UInt8.ofNat count

/-- Advancing from a block leads to the start of the next one. -/
theorem stateIn_advance {i : Nat} (hi : 1 ≤ i) (offset : Nat) :
  (stateIn H message length tag count i offset).advance
    = stateIn H message length tag count (i + 1) 0
  := by
  have hindex : UInt8.ofNat (i + 1) = UInt8.ofNat i + 1 := UInt8.ofNat_add i 1
  have hwritten : ofNatBE 1 (i + 1) = [UInt8.ofNat i + 1] := by
    rw [← hindex]
    rfl
  simp only [stateIn, Stream.advance, blockInput, block_succ H message length tag.framed hi, hindex,
    hwritten]

/-- Within a block, a read moves on by one byte. -/
theorem next?_stateIn {i offset : Nat} (ho : offset < H.outputSize) :
  (stateIn H message length tag count i offset).next?
    = some ((block H message length tag.framed i)[offset],
      stateIn H message length tag count i (offset + 1))
  := Stream.next?_of_lt (s := stateIn H message length tag count i offset) ho

/-- At the end of a block that is not the last, a read starts the next one. -/
theorem next?_stateIn_end {i : Nat} (hi : 1 ≤ i) (hcount : i < count) (hmax : count ≤ 255) :
  (stateIn H message length tag count i H.outputSize).next?
    = some ((block H message length tag.framed (i + 1)).get ⟨0, H.outputSize_pos⟩,
      stateIn H message length tag count (i + 1) 1)
  := by
  have hindex : UInt8.ofNat i < UInt8.ofNat count := by
    rw [UInt8.lt_iff_toNat_lt, UInt8.toNat_ofNat', UInt8.toNat_ofNat']
    omega
  have h := Stream.next?_of_le (s := stateIn H message length tag count i H.outputSize)
    (Nat.le_refl _) hindex
  rw [h]
  simp only [stateIn_advance H message length tag count hi]
  rfl

/-- At the end of the last block, a read gives nothing. -/
theorem next?_stateIn_last :
  (stateIn H message length tag count count H.outputSize).next? = none
  := Stream.next?_dry (s := stateIn H message length tag count count H.outputSize) (Nat.le_refl _)
    (UInt8.lt_irrefl (UInt8.ofNat count))

/-- The number of the block that holds the last of `t` bytes. -/
def blockOf (t : Nat) : Nat := max 1 (t ⌈/⌉ H.outputSize)

/-- The state after `t` bytes have been asked for. -/
def stateAt (t : Nat) : Stream H :=
  let read := min t (count * H.outputSize)
  stateIn H message length tag count (blockOf H read) (read - (blockOf H read - 1) * H.outputSize)

/-- A number of bytes, as the blocks before the last one and the bytes of that one. -/
theorem exists_position {t : Nat} (hcount : 1 ≤ count) (ht : t ≤ count * H.outputSize) :
  ∃ i offset, i < count ∧ offset ≤ H.outputSize ∧ (i = 0 ∨ 1 ≤ offset)
    ∧ t = i * H.outputSize + offset
  := by
  have hpos := H.outputSize_pos
  rcases Nat.eq_zero_or_pos t with rfl | hpos'
  · exact ⟨0, 0, by omega, by omega, by omega, by simp⟩
  · have hdiv := Nat.div_add_mod' (t - 1) H.outputSize
    have hmod := Nat.mod_lt (t - 1) hpos
    have hi : (t - 1) / H.outputSize < count := by
      rw [Nat.div_lt_iff_lt_mul hpos]
      omega
    exact ⟨_, (t - 1) % H.outputSize + 1, hi, hmod, .inr (Nat.le_add_left 1 _), by omega⟩

/-- The end of a block belongs to it, and not to the next one. -/
theorem blockOf_position {i offset : Nat} (ho : offset ≤ H.outputSize) (h : i = 0 ∨ 1 ≤ offset) :
  blockOf H (i * H.outputSize + offset) = i + 1
  := by
  have hpos := H.outputSize_pos
  rw [blockOf, Nat.ceilDiv_eq_add_pred_div, Nat.add_assoc, Nat.add_sub_assoc (by omega),
    Nat.mul_comm, Nat.mul_add_div hpos]
  rcases Nat.eq_zero_or_pos offset with rfl | hoffset
  · rw [Nat.zero_add, Nat.div_eq_of_lt (by omega)]
    omega
  · rw [show offset + H.outputSize - 1 = H.outputSize + (offset - 1) by omega,
      Nat.add_div_left _ hpos, Nat.div_eq_of_lt (by omega)]
    omega

/-- The state at a position is that in its block, at its offset. -/
theorem stateAt_position {i offset : Nat} (hcount : i < count) (ho : offset ≤ H.outputSize)
    (h : i = 0 ∨ 1 ≤ offset) :
  stateAt H message length tag count (i * H.outputSize + offset)
    = stateIn H message length tag count (i + 1) offset
  := by
  have hle : i * H.outputSize + offset ≤ count * H.outputSize := by
    have hmul := Nat.mul_le_mul_right H.outputSize hcount
    rw [Nat.succ_mul] at hmul
    omega
  simp only [stateAt, Nat.min_eq_left hle, blockOf_position H ho h, Nat.add_sub_cancel,
    Nat.add_sub_cancel_left]

/-- Reads beyond the last block leave the state at its end. -/
theorem stateAt_of_le {t : Nat} (ht : count * H.outputSize ≤ t) :
  stateAt H message length tag count t = stateAt H message length tag count (count * H.outputSize)
  := by
  simp only [stateAt, Nat.min_eq_right ht, Nat.min_self]

/-- The run of a stream from its first block on. -/
def run (hcount : 1 ≤ count) (hmax : count ≤ 255) : Expander.Run (expander H) where
  state := stateAt H message length tag count
  byte? t := (blocks H message length tag.framed count)[t]?
  next?_state t := by
    change (stateAt H message length tag count t).next? = _
    have hpos := H.outputSize_pos
    rcases Nat.lt_or_ge t (count * H.outputSize) with hlt | hge
    · obtain ⟨i, offset, hi, ho, h, rfl⟩ := exists_position H count hcount hlt.le
      rw [stateAt_position H message length tag count hi ho h]
      rcases Nat.lt_or_ge offset H.outputSize with hin | hend
      · rw [next?_stateIn H message length tag count hin, getElem?_blocks H _ _ _ hi hin,
          Nat.add_assoc, stateAt_position H message length tag count hi hin (by omega)]
        rfl
      · obtain rfl : offset = H.outputSize := by omega
        rw [← Nat.succ_mul] at hlt ⊢
        have hnext : i + 1 < count := Nat.lt_of_mul_lt_mul_right hlt
        have hbyte := getElem?_blocks H message length tag.framed hnext hpos
        rw [Nat.add_zero] at hbyte
        rw [next?_stateIn_end H message length tag count (by omega) hnext hmax, hbyte,
          stateAt_position H message length tag count hnext (by omega) (by omega)]
        rfl
    · have hlast := stateAt_position H message length tag count (i := count - 1) (by omega)
        (Nat.le_refl H.outputSize) (by omega)
      rw [← Nat.succ_mul, Nat.succ_eq_add_one, Nat.sub_add_cancel hcount] at hlast
      rw [stateAt_of_le H message length tag count hge, hlast, next?_stateIn_last,
        List.getElem?_eq_none (by rwa [length_blocks])]
      rfl
  state_dry t ht := by
    change stateAt H message length tag count (t + 1) = stateAt H message length tag count t
    rw [List.getElem?_eq_none_iff, length_blocks] at ht
    rw [stateAt_of_le H message length tag count ht, stateAt_of_le H message length tag count (by omega)]

theorem min_ceilDiv_le (t : Nat) :
  min t (count * H.outputSize) ⌈/⌉ H.outputSize ≤ count
  := by
  rw [ceilDiv_le_iff_le_mul H.outputSize_pos, Nat.mul_comm]
  apply Nat.min_le_right

/-- The number of the block that is held tells how many blocks have been read, the first included.
-/
theorem toNat_index_stateAt {count : Nat} (hmax : count ≤ 255) (t : Nat) :
  (stateAt H message length tag count t).index.toNat
    = max 1 (min t (count * H.outputSize) ⌈/⌉ H.outputSize)
  := by
  have hceil := min_ceilDiv_le H count t
  simp only [stateAt, stateIn, blockOf, UInt8.toNat_ofNat']
  omega

end States

/-! ### The stream of a request -/

variable {level : Nat} {message tag : List Bytes} {length : Nat} {s : Stream H}

/-- The stream that a request gets is at the start of a run. -/
theorem start_eq_run (h : start H level message tag length = .ok s) :
  ∃ (t : Tag) (hcount : 1 ≤ length ⌈/⌉ H.outputSize) (hmax : length ⌈/⌉ H.outputSize ≤ 255),
    t.framed = Tag.frame (fun b => (H.digest b).toList) tag.flatten
      ∧ s = (run H message.flatten length t (length ⌈/⌉ H.outputSize) hcount hmax).state 0
  := by
  obtain ⟨hpos, hlength, hmax, t, ht, rfl⟩ := start_eq_ok h
  have hcount : 1 ≤ length ⌈/⌉ H.outputSize := by
    rw [Nat.succ_le_iff, Nat.pos_iff_ne_zero, ne_eq, ← Nat.le_zero,
      ceilDiv_le_iff_le_mul H.outputSize_pos]
    omega
  use t, hcount, hmax, ht
  have hstart := stateAt_position H message.flatten length t (length ⌈/⌉ H.outputSize) (i := 0)
    (Nat.succ_le_iff.mp hcount) (Nat.zero_le _) (.inl rfl)
  have hword : (UInt16.ofNat length).toNat = length := by
    rw [UInt16.toNat_ofNat']
    omega
  rw [Stream.start, seedInput, hword]
  exact hstart.symm.trans (by rw [Nat.zero_mul]; rfl)

/-- The expansion has the length that is asked for. -/
theorem length_expand (H : FixedHash) (message tag : Bytes) (length : Nat) :
  (expand H message tag length).length = length
  := by
  rw [expand, List.length_take, length_blocks, Nat.min_eq_left]
  rw [Nat.mul_comm, ← ceilDiv_le_iff_le_mul H.outputSize_pos]

/-- The stream of a request begins with the expansion in one shot. -/
theorem yields_of_start (h : start H level message tag length = .ok s) :
  (expander H).Yields s (expand H message.flatten tag.flatten length)
  := by
  obtain ⟨t, hcount, hmax, ht, rfl⟩ := start_eq_run h
  refine ⟨_, rfl, ?_⟩
  intro j hj
  rw [length_expand] at hj
  rw [expand, List.getElem?_take_of_lt hj, ← ht]
  rfl

/-- The bytes that the stream gives are those of the one-shot expansion. -/
theorem expands (H : FixedHash) (level : Nat) :
  (expander H).Expands level (expand H)
  where
  length_expansion := length_expand H
  yields_of_start _ _ _ _ h := yields_of_start h

/-- Buffers of any sizes that are overwritten one after the other from the stream of a request
receive the bytes of the blocks in order, and beyond the last block they keep their content.  The
number of the current block is that of the block that holds the last byte asked for, and a stream
behind its last block changes neither a buffer nor itself.  So the bytes that were asked for in the
request are those of the expansion in one shot. -/
theorem fillEach_of_start (h : start H level message tag length = .ok s) (buffers : List Bytes) :
  (∀ t < buffers.flatten.length,
    (((expander H).fillEach buffers s).flatMap Prod.fst)[t]?
      = if t < length ⌈/⌉ H.outputSize * H.outputSize then
          (blocks H message.flatten length (Tag.frame (fun b => (H.digest b).toList) tag.flatten)
            (length ⌈/⌉ H.outputSize))[t]?
        else buffers.flatten[t]?)
  ∧ ((expander H).fillEach buffers s).map (fun r => r.1.length) = buffers.map List.length
  ∧ ((expander H).after buffers s : Stream H).index.toNat
    = max 1 (min buffers.flatten.length (length ⌈/⌉ H.outputSize * H.outputSize) ⌈/⌉ H.outputSize)
  ∧ ((expander H).after buffers s : Stream H).count.toNat = length ⌈/⌉ H.outputSize
  ∧ ((expander H).after buffers s : Stream H).index.toNat ≤ length ⌈/⌉ H.outputSize
  ∧ (length ⌈/⌉ H.outputSize * H.outputSize ≤ buffers.flatten.length → ∀ buffer,
    (expander H).fill buffer ((expander H).after buffers s)
      = (buffer, (expander H).after buffers s))
  ∧ (length ≤ buffers.flatten.length →
    (((expander H).fillEach buffers s).flatMap Prod.fst).take length
      = expand H message.flatten tag.flatten length)
  := by
  obtain ⟨t, hcount, hmax, ht, rfl⟩ := start_eq_run h
  rw [← ht]
  have hlength := length_blocks H message.flatten length t.framed (length ⌈/⌉ H.outputSize)
  have hle : length ≤ length ⌈/⌉ H.outputSize * H.outputSize := by
    rw [Nat.mul_comm, ← ceilDiv_le_iff_le_mul H.outputSize_pos]
  have hindex := toNat_index_stateAt H message.flatten length t hmax buffers.flatten.length
  rw [Expander.Run.flatMap_fillEach, Expander.Run.after_state, Nat.zero_add]
  refine ⟨?_, Expander.length_fillEach buffers _, hindex, ?_, ?_, ?_, ?_⟩
  · intro j hj
    rw [Expander.Run.getElem?_overwrite, List.getElem?_eq_getElem hj, Nat.zero_add]
    change some ((blocks H _ _ _ _)[j]?.getD _) = _
    split
    · rename_i hin
      rw [List.getElem?_eq_getElem (by omega)]
      rfl
    · rename_i hout
      rw [List.getElem?_eq_none (by omega)]
      rfl
  · exact UInt8.toNat_ofNat_of_lt' (Nat.lt_succ_of_le hmax)
  · have hceil := min_ceilDiv_le H (length ⌈/⌉ H.outputSize) buffers.flatten.length
    exact hindex.trans_le (Nat.max_le.mpr ⟨hcount, hceil⟩)
  · intro hdry buffer
    rw [Expander.Run.fill_state]
    have hnone : (run H message.flatten length t _ hcount hmax).byte? buffers.flatten.length = none :=
      List.getElem?_eq_none (by omega)
    rw [Expander.Run.overwrite_dry _ hnone, (Expander.Run.dry_add _ hnone _).2]
  · intro hall
    rw [expand, ← ht]
    apply Expander.Run.take_overwrite _ (by omega) hall
    intro j hj
    rw [Nat.zero_add]
    rfl

/-- With SHA-512, in two buffers that part the second block. -/
theorem fillEach_of_start_sha512 :
  ∃ s, start sha512 16 [[2]] [[1]] 96 = .ok s
    ∧ (((expander sha512).fillEach [zeros 70, zeros 26] s).flatMap Prod.fst).take 96
      = expand sha512 [2] [1] 96
  := by
  have hstart : start sha512 16 [[2]] [[1]] 96
      = .ok (Stream.start sha512 [[2]] 96 ⟨[1], by decide⟩ 2) := by rfl
  obtain ⟨-, -, -, -, -, -, hexpand⟩ := fillEach_of_start hstart [zeros 70, zeros 26]
  exact ⟨_, hstart, hexpand (by decide)⟩

end Xmd

end HashToCurve
