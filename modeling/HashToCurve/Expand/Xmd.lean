import HashToCurve.Expand.Expander
import HashToCurve.Expand.Tag
import HashToCurve.Hash.Basic

/-!
# Expansion by a hash function with fixed output

The stream is a chain of blocks.  With `t` the framed tag, the seed `b_0` is the hash of a
block of zeros, the message, the number of bytes wanted, a zero and `t`.  The first block is
the hash of `b_0`, the byte 1 and `t`, and block `i` is the hash of `b_0 ^ b_(i-1)`, the byte
`i` and `t`.  There are as many blocks as hold the bytes wanted, at most 255, and the stream
is dry after the last one.

A block is computed when its first byte is wanted.
-/

namespace HashToCurve

namespace Xmd

/-- Why a request is rejected. -/
inductive Rejection where
  /-- The tag has no bytes. -/
  | emptyTag
  /-- The output of the hash function is shorter than the security level demands, or too long
  to stand in for a long tag. -/
  | hashSize
  /-- No bytes are wanted, or too many. -/
  | length
  deriving DecidableEq, Repr

/-- The text a rejection is reported with. -/
def Rejection.message : Rejection → String
  | .emptyTag => "the domain separation tag is empty"
  | .hashSize =>
    "the hash output size does not fit the security level or the domain separation tag"
  | .length => "the requested output length is out of range"

/-- The state of a stream. -/
structure Stream (H : FixedHash) where
  /-- The seed `b_0`. -/
  seed : Vector UInt8 H.outputSize
  /-- The current block. -/
  block : Vector UInt8 H.outputSize
  /-- The tag. -/
  tag : Tag
  /-- The number of the current block, from 1 on. -/
  index : UInt8
  /-- The position of the next byte in the current block. -/
  offset : Nat
  /-- The number of blocks. -/
  count : UInt8

variable (H : FixedHash)

/-- What is hashed to the seed. -/
def seedInput (message : List Bytes) (length : UInt16) (tag : Tag) : Bytes :=
  Bytes.zeros H.blockSize ++ message.flatten ++ Bytes.ofNatBE 2 length.toNat ++ [0]
    ++ tag.framed

variable {H}

/-- What is hashed to a block, given what the block is chained to. -/
def blockInput (previous : Vector UInt8 H.outputSize) (index : UInt8) (tag : Tag) : Bytes :=
  previous.toList ++ [index] ++ tag.framed

/-- The state at the start of the next block. -/
def Stream.advance (s : Stream H) : Stream H :=
  let index := s.index + 1
  let previous := s.seed.zipWith (· ^^^ ·) s.block
  { s with index, offset := 0, block := H.digest (blockInput previous index s.tag) }

/-- The next byte of a stream and the state after it, unless the stream is dry. -/
def Stream.next? (s : Stream H) : Option (UInt8 × Stream H) :=
  if h : s.offset < H.outputSize then
    some (s.block[s.offset], { s with offset := s.offset + 1 })
  else if s.index < s.count then
    let s := s.advance
    some (s.block.get ⟨0, H.outputSize_pos⟩, { s with offset := 1 })
  else none

/-- The text that shows the state of a stream. -/
def Stream.describe (s : Stream H) : String :=
  "ExpanderXmd \x7b index: " ++ toString s.index.toNat ++ ", ell: "
    ++ toString s.count.toNat ++ ", .. \x7d"

variable (H)

/-- The stream for given slices of a message and a tag, at its first block. -/
def Stream.start (message : List Bytes) (length : UInt16) (tag : Tag) (count : UInt8) :
    Stream H :=
  let seed := H.digest (seedInput H message length tag)
  { seed, block := H.digest (blockInput seed 1 tag), tag, index := 1, offset := 0, count }

/-- The number of blocks that hold `length` bytes. -/
def blockCount (length : Nat) : Nat := (length + H.outputSize - 1) / H.outputSize

/-- The tag of a list of slices; a long one is replaced by its hash. -/
def tag (slices : List Bytes) : Except Rejection Tag :=
  Tag.ofSlices H.digest .emptyTag .hashSize slices

/-- The stream for a request, unless the request is rejected. -/
def start (level : Nat) (message tag : List Bytes) (length : Nat) :
    Except Rejection (Stream H) :=
  if H.outputSize < 2 * level then .error .hashSize
  else
    match Expander.lengthWord? length with
    | none => .error .length
    | some word =>
      let count := blockCount H length
      if 255 < count then .error .length
      else (Xmd.tag H tag).map fun t => Stream.start H message word t (UInt8.ofNat count)

/-- The expander of a hash function with fixed output. -/
def expander : Expander where
  Rejection := Rejection
  message := Rejection.message
  Stream := Stream H
  start := start H
  next? := Stream.next?
  describe := Stream.describe

end Xmd

end HashToCurve
