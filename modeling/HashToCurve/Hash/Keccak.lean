import HashToCurve.Hash.Basic

/-!
# The Keccak sponge and its hash functions

The sponge holds 200 bytes as 25 lanes of 64 bits and a position in its first `rate` bytes.
Input is added byte by byte at the position, output is read byte by byte from it, and the
lanes are permuted when the position has reached the rate and one more byte is wanted.  The
end of the input is marked by a byte of padding at the position, which tells the families of
functions apart, and by the top bit of the last byte before the rate.

The functions are SHA3-256 and SHA3-512, with fixed output, and SHAKE128 and SHAKE256, with
extendable output.
-/

namespace HashToCurve

namespace Keccak

/-- The 25 lanes; lane `x + 5 * y` is in column `x` and row `y`. -/
abbrev Lanes := Vector UInt64 25

/-- A word rotated by `n` bits to the left. -/
def rotateLeft (x : UInt64) (n : UInt64) : UInt64 := (x <<< n) ||| (x >>> (64 - n))

/-- The number of bits by which each lane is rotated. -/
def rotations : Vector UInt64 25 :=
  #v[0, 1, 62, 28, 27,
    36, 44, 6, 55, 20,
    3, 10, 43, 25, 39,
    41, 45, 15, 21, 8,
    18, 2, 61, 56, 14]

/-- The words added to the first lane, one for each round. -/
def roundConstants : List UInt64 :=
  [0x0000000000000001, 0x0000000000008082, 0x800000000000808a, 0x8000000080008000,
    0x000000000000808b, 0x0000000080000001, 0x8000000080008081, 0x8000000000008009,
    0x000000000000008a, 0x0000000000000088, 0x0000000080008009, 0x000000008000000a,
    0x000000008000808b, 0x800000000000008b, 0x8000000000008089, 0x8000000000008003,
    0x8000000000008002, 0x8000000000000080, 0x000000000000800a, 0x800000008000000a,
    0x8000000080008081, 0x8000000000008080, 0x0000000080000001, 0x8000000080008008]

/-- The lane in column `x` and row `y`, both taken modulo 5. -/
def lane (a : Lanes) (x y : Nat) : UInt64 :=
  a.get ⟨x % 5 + 5 * (y % 5), by omega⟩

/-- Adds to each lane the parity of the column to its left, and that of the column to its
right rotated by one bit. -/
def mixColumns (a : Lanes) : Lanes :=
  let parity : Vector UInt64 5 := .ofFn fun x =>
    lane a x 0 ^^^ lane a x 1 ^^^ lane a x 2 ^^^ lane a x 3 ^^^ lane a x 4
  let effect : Vector UInt64 5 := .ofFn fun x =>
    parity[(x.val + 4) % 5] ^^^ rotateLeft parity[(x.val + 1) % 5] 1
  .ofFn fun i => a[i] ^^^ effect[i.val % 5]

/-- Rotates each lane and moves the lane in column `x + 3 y` and row `x` to column `x` and
row `y`. -/
def moveLanes (a : Lanes) : Lanes :=
  .ofFn fun i =>
    let x := i.val % 5
    let y := i.val / 5
    rotateLeft (lane a (x + 3 * y) x) (lane rotations (x + 3 * y) x)

/-- Adds to each lane the next but one lane of its row where the next one is zero. -/
def mixRows (a : Lanes) : Lanes :=
  .ofFn fun i =>
    let x := i.val % 5
    let y := i.val / 5
    a[i] ^^^ (~~~ lane a (x + 1) y &&& lane a (x + 2) y)

/-- One round of the permutation. -/
def round (a : Lanes) (constant : UInt64) : Lanes :=
  let a := mixRows (moveLanes (mixColumns a))
  a.set 0 (a[0] ^^^ constant)

/-- The permutation of the lanes in 24 rounds. -/
def permute (a : Lanes) : Lanes := roundConstants.foldl round a

/-- A sponge that takes and gives `rate` bytes between two permutations. -/
structure Sponge where
  /-- The number of bytes between two permutations. -/
  rate : Fin 200
  /-- The lanes. -/
  lanes : Lanes
  /-- The position of the next byte. -/
  position : Fin 200

namespace Sponge

/-- The sponge before any input. -/
def empty (rate : Fin 200) : Sponge := ⟨rate, .replicate 25 0, 0⟩

/-- A sponge whose position is before the rate, permuted if it was not. -/
def ready (s : Sponge) : Sponge :=
  if s.position < s.rate then s else { s with lanes := permute s.lanes, position := 0 }

/-- Adds a byte to the lanes at a position. -/
def addByte (a : Lanes) (position : Fin 200) (b : UInt8) : Lanes :=
  let i : Fin 25 := ⟨position / 8, by omega⟩
  a.set i (a[i] ^^^ (b.toUInt64 <<< UInt64.ofNat (8 * (position % 8))))

/-- The byte of the lanes at a position. -/
def byteAt (a : Lanes) (position : Fin 200) : UInt8 :=
  let i : Fin 25 := ⟨position / 8, by omega⟩
  (a[i] >>> UInt64.ofNat (8 * (position % 8))).toUInt8

/-- Takes one byte of input. -/
def absorbByte (s : Sponge) (b : UInt8) : Sponge :=
  let s := s.ready
  { s with lanes := addByte s.lanes s.position b, position := s.position + 1 }

/-- Takes a string of input. -/
def absorb (s : Sponge) (input : Bytes) : Sponge := input.foldl absorbByte s

/-- Ends the input with the byte of padding `mark`. -/
def finish (s : Sponge) (mark : UInt8) : Sponge :=
  let s := s.ready
  let marked := addByte s.lanes s.position mark
  { s with lanes := permute (addByte marked (s.rate - 1) 0x80), position := 0 }

instance : ByteSource Sponge where
  next s :=
    let s := s.ready
    (byteAt s.lanes s.position, { s with position := s.position + 1 })

end Sponge

/-- The extendable hash function with a given rate and byte of padding. -/
def hash (rate : Fin 200) (mark : UInt8) : ExtendableHash where
  Reader := Sponge
  reader input := ((Sponge.empty rate).absorb input).finish mark

end Keccak

/-- The extendable hash function SHAKE128. -/
def shake128 : ExtendableHash := Keccak.hash 168 0x1f

/-- The extendable hash function SHAKE256. -/
def shake256 : ExtendableHash := Keccak.hash 136 0x1f

/-- The hash function SHA3-256. -/
def sha3_256 : FixedHash := (Keccak.hash 136 0x06).truncate 136 32 (by decide)

/-- The hash function SHA3-512. -/
def sha3_512 : FixedHash := (Keccak.hash 72 0x06).truncate 72 64 (by decide)

end HashToCurve
