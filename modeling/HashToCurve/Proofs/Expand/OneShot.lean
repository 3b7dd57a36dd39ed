import HashToCurve.Expand.Xmd
import HashToCurve.Expand.Xof
import Mathlib.Algebra.Order.Floor.Div

/-!
# Expansion in one shot

The expansions of a message as functions of the byte strings of the message and of the tag.  Numbers
are written by `ofNatBE`, most significant byte first.  With `t` the framed tag, the blocks of the
expansion by a hash function are numbered from the seed `b_0` on, and the bytes are those of
`b_1 ++ b_2 ++ ...`.
-/

namespace HashToCurve

open Bytes

/-- A tag followed by its length, after a long tag has been shortened. -/
def Tag.frame (shorten : Bytes → Bytes) (tag : Bytes) : Bytes :=
  let short := if tag.length ≤ 255 then tag else shorten (ofAscii "H2C-OVERSIZE-DST-" ++ tag)
  short ++ ofNatBE 1 short.length

namespace Xmd

variable (H : FixedHash) (message : Bytes) (length : Nat) (framed : Bytes)

/-- The seed `b_0`. -/
def seed : Vector UInt8 H.outputSize :=
  H.digest (zeros H.blockSize ++ message ++ ofNatBE 2 length ++ ofNatBE 1 0 ++ framed)

/-- The blocks `b_i`. -/
def block : Nat → Vector UInt8 H.outputSize
  | 0 => seed H message length framed
  | 1 => H.digest ((seed H message length framed).toList ++ ofNatBE 1 1 ++ framed)
  | i + 2 =>
    H.digest (((seed H message length framed).zipWith (· ^^^ ·) (block (i + 1))).toList
      ++ ofNatBE 1 (i + 2) ++ framed)

/-- The bytes of the blocks from `b_1` on. -/
def blocks (count : Nat) : Bytes :=
  (List.range count).flatMap fun i => (block H message length framed (i + 1)).toList

/-- The first `length` bytes of as many blocks as hold them. -/
def expand (message tag : Bytes) (length : Nat) : Bytes :=
  (blocks H message length (Tag.frame (fun b => (H.digest b).toList) tag)
    (length ⌈/⌉ H.outputSize)).take length

end Xmd

namespace Xof

/-- The first `length` bytes of output for the message, the number `length` and the framed tag, in
which a long tag is replaced by `2 * level` bytes of output. -/
def expand (X : ExtendableHash) (level : Nat) (message tag : Bytes) (length : Nat) : Bytes :=
  (X.squeeze length (message ++ ofNatBE 2 length
    ++ Tag.frame (fun b => (X.squeeze (2 * level) b).toList) tag)).toList

end Xof

end HashToCurve
