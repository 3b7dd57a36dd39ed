import HashToCurve.Bytes.Source

/-!
# Hash functions

A hash function with fixed output sends a byte string to a byte string of one size, and
declares the size of the blocks in which it takes its input.  An extendable hash function
sends a byte string to a source, from which as many bytes are drawn as are wanted.  An
extendable hash function cut off after a fixed number of bytes is one with fixed output.
-/

namespace HashToCurve

/-- A hash function with output of a fixed size. -/
structure FixedHash where
  /-- The number of bytes in a block of input. -/
  blockSize : Nat
  /-- The number of bytes of output. -/
  outputSize : Nat
  outputSize_pos : 0 < outputSize
  /-- The output for a given input. -/
  digest : Bytes → Vector UInt8 outputSize

/-- A hash function with output of any size. -/
structure ExtendableHash where
  /-- The state from which output is drawn. -/
  Reader : Type
  [source : ByteSource Reader]
  /-- The state before the first byte of output for a given input. -/
  reader : Bytes → Reader

namespace ExtendableHash

attribute [instance] ExtendableHash.source

/-- The first `size` bytes of output for a given input. -/
def squeeze (X : ExtendableHash) (size : Nat) (input : Bytes) : Vector UInt8 size :=
  (ByteSource.drawVector size (X.reader input)).1

/-- The hash function with the first `size` bytes of output. -/
def truncate (X : ExtendableHash) (blockSize size : Nat) (size_pos : 0 < size) :
    FixedHash where
  blockSize := blockSize
  outputSize := size
  outputSize_pos := size_pos
  digest := X.squeeze size

end ExtendableHash

end HashToCurve
