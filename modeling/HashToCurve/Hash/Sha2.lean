import HashToCurve.Hash.Basic

/-!
# The SHA-2 hash functions

The functions of the family work on words of 32 or 64 bits, in blocks of 16 words.  The input
is padded to whole blocks, and each block is compressed into a state of eight words.  The
output is the start of the final state.

The constants of both widths are fractional parts of roots of small primes: those of 32 bits
are halves of those of 64 bits.
-/

namespace HashToCurve

namespace Sha2

/-- A width of words, with the functions and constants that depend on it. -/
class Word (ω : Type) extends Add ω, AndOp ω, XorOp ω, Complement ω, Inhabited ω where
  /-- The number of bytes in a word. -/
  size : Nat
  size_pos : 0 < size
  /-- The word with the lowest bits of a number. -/
  ofNat : Nat → ω
  /-- The number that a word stands for. -/
  toNat : ω → Nat
  /-- The mixing of the first word of the state. -/
  mixFirst : ω → ω
  /-- The mixing of the fifth word of the state. -/
  mixFifth : ω → ω
  /-- The mixing of the word 15 places back in the schedule. -/
  mixEarly : ω → ω
  /-- The mixing of the word 2 places back in the schedule. -/
  mixLate : ω → ω
  /-- The words added in the rounds, one for each. -/
  roundConstants : List ω

/-- The fractional parts of the cube roots of the first 80 primes, in 64 bits. -/
def cubeRoots : List UInt64 :=
  [0x428a2f98d728ae22, 0x7137449123ef65cd, 0xb5c0fbcfec4d3b2f, 0xe9b5dba58189dbbc,
    0x3956c25bf348b538, 0x59f111f1b605d019, 0x923f82a4af194f9b, 0xab1c5ed5da6d8118,
    0xd807aa98a3030242, 0x12835b0145706fbe, 0x243185be4ee4b28c, 0x550c7dc3d5ffb4e2,
    0x72be5d74f27b896f, 0x80deb1fe3b1696b1, 0x9bdc06a725c71235, 0xc19bf174cf692694,
    0xe49b69c19ef14ad2, 0xefbe4786384f25e3, 0x0fc19dc68b8cd5b5, 0x240ca1cc77ac9c65,
    0x2de92c6f592b0275, 0x4a7484aa6ea6e483, 0x5cb0a9dcbd41fbd4, 0x76f988da831153b5,
    0x983e5152ee66dfab, 0xa831c66d2db43210, 0xb00327c898fb213f, 0xbf597fc7beef0ee4,
    0xc6e00bf33da88fc2, 0xd5a79147930aa725, 0x06ca6351e003826f, 0x142929670a0e6e70,
    0x27b70a8546d22ffc, 0x2e1b21385c26c926, 0x4d2c6dfc5ac42aed, 0x53380d139d95b3df,
    0x650a73548baf63de, 0x766a0abb3c77b2a8, 0x81c2c92e47edaee6, 0x92722c851482353b,
    0xa2bfe8a14cf10364, 0xa81a664bbc423001, 0xc24b8b70d0f89791, 0xc76c51a30654be30,
    0xd192e819d6ef5218, 0xd69906245565a910, 0xf40e35855771202a, 0x106aa07032bbd1b8,
    0x19a4c116b8d2d0c8, 0x1e376c085141ab53, 0x2748774cdf8eeb99, 0x34b0bcb5e19b48a8,
    0x391c0cb3c5c95a63, 0x4ed8aa4ae3418acb, 0x5b9cca4f7763e373, 0x682e6ff3d6b2b8a3,
    0x748f82ee5defb2fc, 0x78a5636f43172f60, 0x84c87814a1f0ab72, 0x8cc702081a6439ec,
    0x90befffa23631e28, 0xa4506cebde82bde9, 0xbef9a3f7b2c67915, 0xc67178f2e372532b,
    0xca273eceea26619c, 0xd186b8c721c0c207, 0xeada7dd6cde0eb1e, 0xf57d4f7fee6ed178,
    0x06f067aa72176fba, 0x0a637dc5a2c898a6, 0x113f9804bef90dae, 0x1b710b35131c471b,
    0x28db77f523047d84, 0x32caab7b40c72493, 0x3c9ebe0a15c9bebc, 0x431d67c49c100d4c,
    0x4cc5d4becb3e42b6, 0x597f299cfc657e2a, 0x5fcb6fab3ad6faec, 0x6c44198c4a475817]

/-- The fractional parts of the square roots of the first 8 primes, in 64 bits. -/
def squareRoots : Vector UInt64 8 :=
  #v[0x6a09e667f3bcc908, 0xbb67ae8584caa73b, 0x3c6ef372fe94f82b, 0xa54ff53a5f1d36f1,
    0x510e527fade682d1, 0x9b05688c2b3e6c1f, 0x1f83d9abfb41bd6b, 0x5be0cd19137e2179]

/-- The fractional parts of the square roots of the next 8 primes, in 64 bits. -/
def laterSquareRoots : Vector UInt64 8 :=
  #v[0xcbbb9d5dc1059ed8, 0x629a292a367cd507, 0x9159015a3070dd17, 0x152fecd8f70e5939,
    0x67332667ffc00b31, 0x8eb44a8768581511, 0xdb0c2e0d64f98fa7, 0x47b5481dbefa4fa4]

/-- The upper half of a word of 64 bits. -/
def upperHalf (x : UInt64) : UInt32 := (x >>> 32).toUInt32

/-- A word rotated by `n` bits to the right, for `0 < n < 32`. -/
def rotateRight32 (x n : UInt32) : UInt32 := (x >>> n) ||| (x <<< (32 - n))

/-- A word rotated by `n` bits to the right, for `0 < n < 64`. -/
def rotateRight64 (x n : UInt64) : UInt64 := (x >>> n) ||| (x <<< (64 - n))

instance : Word UInt32 where
  size := 4
  size_pos := by decide
  ofNat := UInt32.ofNat
  toNat := UInt32.toNat
  mixFirst x := rotateRight32 x 2 ^^^ rotateRight32 x 13 ^^^ rotateRight32 x 22
  mixFifth x := rotateRight32 x 6 ^^^ rotateRight32 x 11 ^^^ rotateRight32 x 25
  mixEarly x := rotateRight32 x 7 ^^^ rotateRight32 x 18 ^^^ (x >>> 3)
  mixLate x := rotateRight32 x 17 ^^^ rotateRight32 x 19 ^^^ (x >>> 10)
  roundConstants := (cubeRoots.take 64).map upperHalf

instance : Word UInt64 where
  size := 8
  size_pos := by decide
  ofNat := UInt64.ofNat
  toNat := UInt64.toNat
  mixFirst x := rotateRight64 x 28 ^^^ rotateRight64 x 34 ^^^ rotateRight64 x 39
  mixFifth x := rotateRight64 x 14 ^^^ rotateRight64 x 18 ^^^ rotateRight64 x 41
  mixEarly x := rotateRight64 x 1 ^^^ rotateRight64 x 8 ^^^ (x >>> 7)
  mixLate x := rotateRight64 x 19 ^^^ rotateRight64 x 61 ^^^ (x >>> 6)
  roundConstants := cubeRoots

variable {ω : Type} [Word ω]

/-- The last 16 words of the schedule, moved on by one word. -/
def nextWindow (window : Vector ω 16) : Vector ω 16 :=
  let word := window[0] + Word.mixEarly window[1] + window[9] + Word.mixLate window[14]
  .ofFn fun i => if h : i.val + 1 < 16 then window[i.val + 1] else word

/-- One round: the state after it, given the word of the schedule and the constant. -/
def round (state : Vector ω 8) (word constant : ω) : Vector ω 8 :=
  let (a, b, c, d) := (state[0], state[1], state[2], state[3])
  let (e, f, g, h) := (state[4], state[5], state[6], state[7])
  let choice := (e &&& f) ^^^ (~~~ e &&& g)
  let majority := (a &&& b) ^^^ (a &&& c) ^^^ (b &&& c)
  let t := h + Word.mixFifth e + choice + constant + word
  #v[t + Word.mixFirst a + majority, a, b, c, d + t, e, f, g]

/-- The words of a string of bytes, most significant byte first. -/
def words (b : Bytes) : List ω :=
  (b.chunks (Word.size ω)).map fun word => Word.ofNat (Bytes.toNatBE word)

/-- The bytes of a state, most significant byte of each word first. -/
def stateBytes (state : Vector ω 8) : Bytes :=
  state.toList.flatMap fun word => Bytes.ofNatBE (Word.size ω) (Word.toNat word)

/-- The state after a block of input, which is added to the state before. -/
def compress (state : Vector ω 8) (block : Bytes) : Vector ω 8 :=
  let message := (words block).toArray
  let window : Vector ω 16 := .ofFn fun i => message.getD i default
  let step := fun (s : Vector ω 8 × Vector ω 16) (constant : ω) =>
    (round s.1 s.2[0] constant, nextWindow s.2)
  let (mixed, _) := (Word.roundConstants.foldl step (state, window))
  .ofFn fun i => state[i] + mixed[i]

/-- The padding of an input of a given length: a set bit, zeros, and the length in bits in the
last two words of a block. -/
def padding (ω : Type) [Word ω] (length : Nat) : Bytes :=
  let lengthSize := 2 * Word.size ω
  let blockSize := 16 * Word.size ω
  let gap := (blockSize - (length + 1 + lengthSize) % blockSize) % blockSize
  0x80 :: Bytes.zeros gap ++ Bytes.ofNatBE lengthSize (8 * length)

/-- The final state for an input, from a given initial state. -/
def finalState (initial : Vector ω 8) (input : Bytes) : Vector ω 8 :=
  ((input ++ padding ω input.length).chunks (16 * Word.size ω)).foldl compress initial

theorem length_stateBytes (state : Vector ω 8) :
  (stateBytes state).length = 8 * Word.size ω
  := by
  simp [stateBytes, List.length_flatMap, Bytes.length_ofNatBE, List.map_const']
  omega

/-- The hash function that gives the first `size` bytes of the final state. -/
def hash (initial : Vector ω 8) (size : Nat) (size_range : 0 < size ∧ size ≤ 8 * Word.size ω) :
    FixedHash where
  blockSize := 16 * Word.size ω
  outputSize := size
  outputSize_pos := size_range.1
  digest input :=
    ⟨((stateBytes (finalState initial input)).take size).toArray, by
      simp [length_stateBytes, size_range.2]⟩

end Sha2

/-- The hash function SHA-224. -/
def sha224 : FixedHash :=
  Sha2.hash (Sha2.laterSquareRoots.map UInt64.toUInt32) 28 (by decide)

/-- The hash function SHA-256. -/
def sha256 : FixedHash :=
  Sha2.hash (Sha2.squareRoots.map Sha2.upperHalf) 32 (by decide)

/-- The hash function SHA-384. -/
def sha384 : FixedHash := Sha2.hash Sha2.laterSquareRoots 48 (by decide)

/-- The hash function SHA-512. -/
def sha512 : FixedHash := Sha2.hash Sha2.squareRoots 64 (by decide)

end HashToCurve
