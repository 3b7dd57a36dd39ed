import HashToCurve.Buffer
import HashToCurve.Expand.Expander
import HashToCurve.Field.Codec

/-!
# Hashing to field elements

A type of elements that are read from blocks of uniform bytes is filled from the stream of an
expander, one block after another.  The number of bytes wanted is the size of a block times
the number of elements, or the largest 64-bit word if that is exceeded.

One block is used for all elements and overwritten for each of them.
-/

namespace HashToCurve

/-- A type whose elements are read from blocks of uniform bytes. -/
class FromUniformBytes (T : Type) where
  /-- The number of bytes in a block. -/
  size : Nat
  /-- The element of a block. -/
  ofUniformBytes : Vector UInt8 size → T

instance : FromUniformBytes FieldElement where
  size := 48
  ofUniformBytes := FieldElement.ofUniformBytes

/-- A word of 32 bits, most significant byte first. -/
instance : FromUniformBytes UInt32 where
  size := 4
  ofUniformBytes b := UInt32.ofNat (Bytes.toNatBE b.toList)

namespace HashToField

/-- The largest number of bytes that can be asked for. -/
def maxRequest : Nat := UInt64.size - 1

/-- The number of bytes asked for, for `count` elements of `size` bytes each. -/
def requestLength (size count : Nat) : Nat := min (size * count) maxRequest

variable (E : Expander) (T : Type) [FromUniformBytes T]

/-- The elements of the next `count` blocks of a stream, each read from what the stream makes
of the block before it. -/
def readElements : (count : Nat) → Vector UInt8 (FromUniformBytes.size T) → E.Stream →
    List T
  | 0, _, _ => []
  | count + 1, block, s =>
    let (block, s) := E.fillVector block s
    FromUniformBytes.ofUniformBytes block :: readElements count block s

theorem length_readElements (count : Nat) (block : Vector UInt8 (FromUniformBytes.size T))
    (s : E.Stream) :
  (readElements E T count block s).length = count
  := by
  induction count generalizing block s with
  | zero => rfl
  | succ count ih => simp [readElements, ih]

end HashToField

open HashToField

/-- The elements of type `T` that a message and a tag are hashed to, unless the expander
rejects the request. -/
def hashToField (E : Expander) (T : Type) [FromUniformBytes T] (level : Nat)
    (message tag : List Bytes) (count : Nat) : Except E.Rejection (Vector T count) :=
  (E.start level message tag (requestLength (FromUniformBytes.size T) count)).map fun s =>
    ⟨(readElements E T count (.replicate _ 0) s).toArray, by simp [length_readElements]⟩

/-- Overwrites a buffer with the elements that a message and a tag are hashed to.  If the
request is rejected, the buffer is left as it was. -/
def overwriteElements (E : Expander) (T : Type) [FromUniformBytes T] (level : Nat)
    (message tag : List Bytes) : EStateM E.Rejection (List T) Unit :=
  Buffer.replaceBy fun buffer =>
    (hashToField E T level message tag buffer.length).map Vector.toList

end HashToCurve
